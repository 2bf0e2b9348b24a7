import MotifSearch.Proofs.Kern.LineSpans
import MotifSearch.Proofs.Pattern.Notes
import MotifSearch.Proofs.Search.SpanShape

/-!
# Matches that begin in comments

A match begins with a record or with the tab before a column, and nothing looks back to how the line
of that tab began. So a match can begin in a comment, but only on a tab, and only if what follows
the tab spells a note of the pattern.

## Main definitions

* `Span.StartsIn` — a range starts in a line of a score

## Main results

* `exists_line_of_begins` — the line in which something begins
* `startsIn_comment` — where a match starts that starts in a comment
* `startsIn_comment_tab` — a match that starts in a comment
-/

namespace MotifSearch

open Text (byteLength)
open Record (terminatedText terminatedText_cons)

/-- A range starts in a line of a score: with its first byte, or behind it and not behind the
newline of the line. -/
def Span.StartsIn (span : Span) (score : List Char) (line : Nat) : Prop :=
  (Kern.lineSpan score line).start ≤ span.start ∧ span.start < (Kern.lineSpan score line).stop

instance (span : Span) (score : List Char) (line : Nat) : Decidable (span.StartsIn score line) :=
  inferInstanceAs (Decidable (_ ∧ _))

namespace Kern

variable {score before part after : List Char}

/-- The line in which something begins that goes on to the end of the line. -/
theorem exists_line_of_begins (hscore : score = before ++ (part ++ '\n' :: after))
    (hpart : '\n' ∉ part) :
    ∃ line lead, (lines score)[line]? = some (lead ++ part) ∧
      byteLength before = lineStart score line + byteLength lead ∧
      byteLength before < lineStart score (line + 1) ∧
      (lineStartAfter true before = true → lead = []) := by
  obtain ⟨lead, hbefore, hlead, hdone⟩ := Record.exists_terminatedText before
  generalize (lines before).dropLast = done at hbefore hdone
  subst hbefore
  have hline : '\n' ∉ lead ++ part := by simp [hlead, hpart]
  have hall : lines score = done ++ (lead ++ part) :: lines after := by
    rw [hscore, List.append_assoc, lines_terminatedText hdone, ← List.append_assoc lead,
      lines_append_newline hline]
  have hstart := lineStart_of_eq_append hall
  have hget : (lines score)[done.length]? = some (lead ++ part) := by simp [hall]
  obtain ⟨hlt, hget'⟩ := List.getElem?_eq_some_iff.mp hget
  have hnext := lineStart_succ hlt
  rw [hget', Text.byteLength_append] at hnext
  refine ⟨done.length, lead, hget, ?_, ?_, fun hbefore => ?_⟩
  · rw [hstart, Text.byteLength_append]
  · rw [hnext, hstart, Text.byteLength_append]
    omega
  · rw [lineStartAfter_append, Record.lineStartAfter_terminatedText] at hbefore
    exact (eq_nil_of_lineStartAfter hbefore hlead).2

end Kern

/-- A match that starts in a comment starts on a tab, after which a note of the pattern is
spelled. -/
theorem startsIn_comment {pattern : Pattern} {score : List Char} {spans : List Span}
    (h : locate score pattern.compile.expression = .ok spans) :
    ∀ span ∈ spans, ∀ line comment, (Kern.lines score)[line]? = some comment →
      comment.head? = some '!' → span.StartsIn score line →
        ∃ lead rest, comment = lead ++ '\t' :: rest ∧
          span.start = Kern.lineStart score line + byteLength lead ∧
          ∃ note ∈ pattern.notes, note.Spelled rest := by
  intro span hspan line comment hline hcomment hstarts
  rw [eq_spansFrom_of_locate h] at hspan
  obtain ⟨before, word, after, hscore, rfl, hne, hlength⟩ :=
    Regex.exists_preferred_of_mem_spansFrom hspan
  obtain ⟨note, hnote, part, rest, rfl, hpart, hbegins⟩ :=
    Pattern.begins_of_preferredLength hlength hne
  rw [List.append_assoc, List.cons_append] at hscore
  obtain ⟨other, lead, hget, hbefore, hlt, hlead⟩ := Kern.exists_line_of_begins hscore hpart
  simp only [Span.StartsIn, Kern.lineSpan, Nat.zero_add] at hstarts ⊢
  -- The line in which the match begins is the comment.
  obtain rfl : other = line := by
    have hle : line ≤ other := Kern.le_of_lineStart_lt (Nat.lt_of_le_of_lt hstarts.1 hlt)
    have hge : other ≤ line := by
      have hlt : Kern.lineStart score other < Kern.lineStart score (line + 1) := by omega
      exact Kern.le_of_lineStart_lt hlt
    exact Nat.le_antisymm hge hle
  obtain rfl : lead ++ part = comment := Option.some.inj (hget.symm.trans hline)
  rcases hbegins with ⟨hstart, hspelled⟩ | ⟨behind, rfl, hspelled⟩
  · -- A note at the beginning of the line would begin with an exclamation mark.
    obtain rfl := hlead hstart
    obtain ⟨c, text, rfl, hc, -⟩ := NotePattern.exists_cons_of_spelled hspelled
    obtain rfl : c = '!' := by simpa using hcomment
    cases hc
  · exact ⟨lead, behind, rfl, hbefore, note, hnote, hspelled⟩

/-- A comment with a column that spells a note: the match starts on the tab before it. -/
theorem startsIn_comment_tab :
    locate "!\t4c\n".toList (Pattern.quarterNote .c).compile.expression = .ok [⟨1, 5⟩] ∧
      (Kern.lines "!\t4c\n".toList)[0]? = some "!\t4c".toList ∧
      Span.StartsIn ⟨1, 5⟩ "!\t4c\n".toList 0 := by
  refine ⟨rfl, ?_, ?_⟩ <;> decide +kernel

/-- What is found there is what the comment has behind its tab. -/
theorem startsIn_comment_spelled :
    locate "!\t4c\n".toList (Pattern.quarterNote .c).compile.expression = .ok [⟨1, 5⟩] ∧
      ∃ lead rest, "!\t4c".toList = lead ++ '\t' :: rest ∧
        ∃ note ∈ (Pattern.quarterNote .c).notes, note.Spelled rest := by
  have hlocate : locate "!\t4c\n".toList (Pattern.quarterNote .c).compile.expression =
      .ok [⟨1, 5⟩] := rfl
  obtain ⟨lead, rest, hcomment, -, hspelled⟩ := startsIn_comment hlocate ⟨1, 5⟩ (by simp) 0
    "!\t4c".toList (by decide +kernel) (by decide +kernel) (by decide +kernel)
  exact ⟨hlocate, lead, rest, hcomment, hspelled⟩

end MotifSearch
