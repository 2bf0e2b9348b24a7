import MotifSearch.Pattern.Basic

/-!
# The canonical text of a pattern

The canonical text shows a pattern in one line: notes as duration, slash and pitch, sequences in
square brackets, alternations in angle brackets, and groups in round brackets with their bounds.
Patterns that were written differently but mean the same tree have the same canonical text.

## Main definitions

* `NotePattern.canonical`, `Bounds.canonical` — the texts of a note and of bounds
* `Pattern.canonical` — the text of a pattern

## Main results

* `childTexts_eq_map`, `branchTexts_eq_map` — the texts below a node in terms of `List.map`
-/

namespace MotifSearch

/-- A duration: its kern code and its dots, or a star. -/
def DottedDuration.canonical (duration : DottedDuration) : List Char :=
  duration.code.kern ++ List.replicate duration.dots.toNat '.'

/-- A pitch: letter, octave number and accidental code; a question mark for any accidental. -/
def PitchPattern.canonical (pitch : PitchPattern) : List Char :=
  let accidental := match pitch.accidental with
    | .any => ['?']
    | .exact accidental => accidental.code
  pitch.letter.char :: pitch.octave.text ++ accidental

/-- A note: duration, slash and pitch, with a star for what is left open. -/
def NotePattern.canonical (note : NotePattern) : List Char :=
  let duration := match note.duration with
    | .any => ['*']
    | .exact duration => duration.canonical
  let pitch := match note.pitch with
    | .any => ['*']
    | .exact pitch => pitch.canonical
  duration ++ '/' :: pitch

/-- One bound, or a hyphen where none was given. -/
def Bounds.boundText : Option UInt32 → List Char
  | some n => Text.decimal n.toNat
  | none => ['-']

/-- Both bounds in braces. -/
def Bounds.canonical (bounds : Bounds) : List Char :=
  ['\x7b'] ++ boundText bounds.min ++ [','] ++ boundText bounds.max ++ ['\x7d']

namespace Pattern

/-- The texts of the children of a node, with a space between any two. -/
def spaced (texts : List (List Char)) : List Char :=
  [' '].intercalate texts

mutual

/-- The canonical text of a pattern. -/
def canonical : Pattern → List Char
  | note spec => spec.canonical
  | sequence children => ['['] ++ spaced (childTexts children) ++ [']']
  | alternation branches => ['<'] ++ [' ', '|', ' '].intercalate (branchTexts branches) ++ ['>']
  | group children bounds => ['('] ++ spaced (childTexts children) ++ [')'] ++ bounds.canonical

/-- The canonical texts of the children of a node. -/
def childTexts : List Pattern → List (List Char)
  | [] => []
  | child :: children => child.canonical :: childTexts children

/-- The canonical texts of the branches of an alternation. -/
def branchTexts : List (List Pattern) → List (List Char)
  | [] => []
  | branch :: branches => spaced (childTexts branch) :: branchTexts branches

end

theorem childTexts_eq_map (children : List Pattern) :
    childTexts children = children.map canonical := by
  induction children with
  | nil => rfl
  | cons child children ih => simp [childTexts, ih]

theorem branchTexts_eq_map (branches : List (List Pattern)) :
    branchTexts branches = branches.map fun branch => spaced (branch.map canonical) := by
  induction branches with
  | nil => rfl
  | cons branch branches ih => simp [branchTexts, childTexts_eq_map, ih]

end Pattern

end MotifSearch
