import MotifSearch.Text.Bytes
import MotifSearch.Text.Number

/-!
# Lines of a score

A score is a text of lines, each a record. Lines are numbered from zero, and a newline belongs to
the line that it ends. A text that ends with a newline has an empty line after it.

## Main definitions

* `Kern.lines` — the lines of a score
* `partitionPoint` — how many items pass a test, found by halving
* `LineMap` — where the lines end, with `LineMap.lineOf`, the line of a byte offset
* `LineError` — why an offset has no line

## Main results

* `lineEnds_length` — there is one end for each line
* `lineOf_lt` — a line that is found is one of the lines
-/

namespace MotifSearch

/-- Why an offset has no line. -/
inductive LineError where
  | offsetOutOfRange (offset length : Nat)
  | emptyLine (line : Nat)
  deriving DecidableEq

/-- A cause in words. -/
def LineError.message : LineError → String
  | offsetOutOfRange offset length =>
    "Offset " ++ String.ofList (Text.decimal offset) ++ " is beyond the end of the score (" ++
      String.ofList (Text.decimal length) ++ " bytes)"
  | emptyLine line => "Empty line found at line " ++ String.ofList (Text.decimal line)

namespace Kern

/-- The lines of a score, without their newlines. -/
def lines (score : List Char) : List (List Char) :=
  score.splitOn '\n'

/-- The text of the given lines. -/
def unlines (lines : List (List Char)) : List Char :=
  ['\n'].intercalate lines

theorem unlines_lines (score : List Char) : unlines (lines score) = score :=
  List.intercalate_splitOn '\n'

/-- The offsets behind the newline of each line, given the offset of the first one. -/
def lineEnds (start : Nat) : List (List Char) → List Nat
  | [] => []
  | line :: lines =>
    let stop := start + Text.byteLength line + 1
    stop :: lineEnds stop lines

@[simp] theorem lineEnds_length (start : Nat) (lines : List (List Char)) :
    (lineEnds start lines).length = lines.length := by
  induction lines generalizing start with
  | nil => rfl
  | cons line lines ih => simp [lineEnds, ih]

end Kern

/-- How many items pass a test, where those that pass it come before all others. The first one that
does not pass it is looked for in a range that is halved each time. -/
def partitionPoint {α : Type} (test : α → Bool) (items : Array α) : Nat :=
  go 0 items.size (Nat.le_refl _)
where
  /-- Look for it from `low` up to `high`. -/
  go (low high : Nat) (hhigh : high ≤ items.size) : Nat :=
    if h : low < high then
      let middle := (low + high) / 2
      if test items[middle] then go (middle + 1) high hhigh
      else go low middle (by omega)
    else low
  termination_by high - low

/-- Where the lines of a score end. -/
structure LineMap where
  /-- The offsets behind the newlines, as if the last line had one, too. -/
  ends : Array Nat
  /-- The first line that holds nothing. -/
  firstEmpty : Option Nat
  /-- The number of bytes of the score. -/
  length : Nat

namespace LineMap

/-- The line map of a score. -/
def ofScore (score : List Char) : LineMap where
  ends := (Kern.lineEnds 0 (Kern.lines score)).toArray
  firstEmpty := (Kern.lines score).findIdx? List.isEmpty
  length := Text.byteLength score

/-- The number of lines. -/
def lineCount (map : LineMap) : Nat :=
  map.ends.size

/-- The line of a byte offset. The end of the score belongs to the last line, and no line is found
from the first empty one on. -/
def lineOf (map : LineMap) (offset : Nat) : Except LineError Nat :=
  let line := partitionPoint (· ≤ offset) map.ends
  if line < map.lineCount then
    match map.firstEmpty with
    | some empty => if empty ≤ line then .error (.emptyLine empty) else .ok line
    | none => .ok line
  else .error (.offsetOutOfRange offset map.length)

theorem lineCount_ofScore (score : List Char) :
    (ofScore score).lineCount = (Kern.lines score).length := by
  simp [ofScore, lineCount]

/-- A line that is found is one of the lines. -/
theorem lineOf_lt {map : LineMap} {offset line : Nat} (h : map.lineOf offset = .ok line) :
    line < map.lineCount := by
  simp only [lineOf] at h
  split at h
  · next hlt =>
    split at h
    · split at h
      · cases h
      · cases h
        exact hlt
    · cases h
      exact hlt
  · cases h

end LineMap

end MotifSearch
