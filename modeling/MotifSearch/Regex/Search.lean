import MotifSearch.Regex.Match
import MotifSearch.Regex.Shared
import MotifSearch.Text.Span

/-!
# All matches in a text

Matches are looked for from left to right and do not overlap. The search goes on right after a
match, and one character further where there is none or only an empty one: an empty match covers
nothing, so it is not reported. Lines begin at the beginning of the text and after each newline.
Before the search, what all branches of a choice begin with is moved to the front of the choice.

## Main definitions

* `Regex.search` — the matches from a position on
* `Regex.findAll` — the spans of all non-empty matches of an expression in a text
-/

namespace MotifSearch.Regex

/-- Collect the non-empty matches in `text`, which begins at byte `offset` of the score. The first
`skip` characters belong to a match that has been reported already. -/
def search (regex : Regex) :
    (skip : Nat) → (atLineStart : Bool) → (offset : Nat) → List Char → Array Span → Array Span
  | _, _, _, [], found => found
  | skip + 1, _, offset, c :: text, found =>
    search regex skip (c == '\n') (offset + c.utf8Size) text found
  | 0, atLineStart, offset, c :: text, found =>
    match regex.preferredLength atLineStart (c :: text) with
    | some (more + 1) =>
      let stop := offset + Text.byteLength ((c :: text).take (more + 1))
      search regex more (c == '\n') (offset + c.utf8Size) text (found.push ⟨offset, stop⟩)
    | _ => search regex 0 (c == '\n') (offset + c.utf8Size) text found

/-- The spans of all non-empty matches in a text, from left to right. -/
def findAll (regex : Regex) (text : List Char) : List Span :=
  (regex.factored.search 0 true 0 text #[]).toList

end MotifSearch.Regex
