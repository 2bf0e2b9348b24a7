import MotifSearch.Kern.Lines

/-!
# Voices of a score

The columns of a score are its spines, separated by tabs. The line in which the first kern spine is
announced tells how many columns there are; of the tokens of a later line, those beyond are left
out. A voice is one column as a text of its own, from that line to the last spine terminator.

## Main definitions

* `Kern.kernSpine`, `Kern.terminator` — the marks at the two ends of a spine
* `Kern.spineLines` — the lines between them
* `Kern.voice`, `Kern.voices` — the text of a column, and those of all kern spines

## Main results

* `voices_of_no_kernSpine` — without a kern spine there is no voice
-/

namespace MotifSearch.Kern

/-- Announces a kern spine. -/
def kernSpine : List Char := "**kern".toList

/-- Terminates a spine. -/
def terminator : List Char := "*-".toList

/-- What follows the beginning of the first occurrence of a mark, the mark included. -/
def fromFirst? (mark : List Char) : List Char → Option (List Char)
  | [] => if mark = [] then some [] else none
  | c :: rest => if mark.isPrefixOf (c :: rest) then some (c :: rest) else fromFirst? mark rest

/-- A line up to the last occurrence of a mark, the mark included. -/
def uptoLast? (mark line : List Char) : Option (List Char) :=
  (fromFirst? mark.reverse line.reverse).map List.reverse

/-- A list of lines up to the last occurrence of a mark. Without one they are all kept. -/
def cutAfterLast (mark : List Char) (lines : List (List Char)) : List (List Char) :=
  match lines.reverse.dropWhile fun line => (uptoLast? mark line).isNone with
  | [] => lines
  | last :: before => before.reverse ++ [(uptoLast? mark last).getD last]

/-- The lines from the first one with a kern spine on, up to the last terminator. -/
def spineLines (score : List Char) : List (List Char) :=
  cutAfterLast terminator ((lines score).dropWhile fun line => (fromFirst? kernSpine line).isNone)

/-- The tokens of a line, one for each column. -/
def tokens (line : List Char) : List (List Char) :=
  line.splitOn '\t'

/-- The text of a column: its token in each line that has one, with a newline after it. -/
def voice (rows : List (List (List Char))) (column : Nat) : List Char :=
  rows.flatMap fun row =>
    match row[column]? with
    | some token => token ++ ['\n']
    | none => []

/-- The texts of the columns that are kern spines. -/
def voices (score : List Char) : List (List Char) :=
  let rows := (spineLines score).map tokens
  let columns := (rows.head?.map List.length).getD 0
  ((List.range columns).map (voice rows)).filter kernSpine.isPrefixOf

private theorem dropWhile_eq_nil {α : Type} {test : α → Bool} {items : List α}
    (h : ∀ item ∈ items, test item = true) : items.dropWhile test = [] := by
  induction items with
  | nil => rfl
  | cons item items ih =>
    simp [h item (by simp), ih fun other hother => h other (by simp [hother])]

/-- Without a kern spine there is no voice. -/
theorem voices_of_no_kernSpine {score : List Char}
    (h : ∀ line ∈ lines score, fromFirst? kernSpine line = none) : voices score = [] := by
  have hnone : ((lines score).dropWhile fun line => (fromFirst? kernSpine line).isNone) = [] :=
    dropWhile_eq_nil fun line hline => by simp [h line hline]
  simp [voices, spineLines, hnone, cutAfterLast]

end MotifSearch.Kern
