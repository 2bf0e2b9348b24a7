import MotifSearch.Pattern.Basic

/-!
# The match expression of a pattern

A note of a pattern becomes an expression for one record of a kern score: the start of the record
or of a voice within it, some marks, the duration, the pitch, a guard against a pitch that goes on,
the rest of the record, and then as few records as possible that hold no notes. The expressions of
a sequence follow each other, and those of an alternation are separated by bars, in both cases
without brackets; only groups are bracketed.

## Main definitions

* `DottedDuration.expression`, `PitchPattern.expression`, `NotePattern.expression` — the parts
* `Pattern.expression` — the expression of a pattern

## Main results

* `sequenceExpression_append` — expressions of sequences follow each other
* `branchesExpression_eq_intercalate` — those of branches are separated by bars
-/

namespace MotifSearch

/-- The start of a record, or of a voice within it. -/
def recordStart : List Char := "(?:^|\\t)".toList

/-- Marks for elisions, slurs, phrases and ties that may precede a duration. -/
def openingMarks : List Char := "[&(\x7b\\[_]*".toList

/-- Any duration, dotted or not. -/
def anyDuration : List Char := "[0-9]+\\.*".toList

/-- Any pitch letter in any octave. -/
def anyPitch : List Char := "(?:a+|b+|c+|d+|e+|f+|g+|A+|B+|C+|D+|E+|F+|G+)".toList

/-- Any accidental or none. -/
def anyAccidental : List Char := "(?:#*|-*|n)".toList

/-- The rest of the record, which must not go on with the pitch. -/
def recordRest : List Char := "(?:[^a-gA-Gn#\\n-].*)?".toList

/-- The end of the record. -/
def recordEnd : List Char := "\\n".toList

/-- Records without notes that may follow, as few as possible. -/
def skippedRecords : List Char := "(?:[.!*=].*\\n)*?".toList

/-- A text with a backslash before each character. -/
def escapeAll (text : List Char) : List Char :=
  text.flatMap fun c => ['\\', c]

/-- The expression of a given duration: its code and its dots. -/
def DottedDuration.expression (duration : DottedDuration) : List Char :=
  duration.code.kern ++ escapeAll (List.replicate duration.dots.toNat '.')

/-- The expression of an accidental. One that cannot be written in kern is left out. -/
def accidentalExpression : Constraint Accidental → List Char
  | .any => anyAccidental
  | .exact accidental => escapeAll (accidental.kern?.getD [])

/-- The expression of a given pitch: its letters and its accidental. -/
def PitchPattern.expression (pitch : PitchPattern) : List Char :=
  kernLetters pitch.letter pitch.octave ++ accidentalExpression pitch.accidental

/-- The expression of the duration of a note. -/
def NotePattern.durationExpression (note : NotePattern) : List Char :=
  match note.duration with
  | .any => anyDuration
  | .exact duration => duration.expression

/-- The expression of the pitch of a note. -/
def NotePattern.pitchExpression (note : NotePattern) : List Char :=
  match note.pitch with
  | .any => anyPitch ++ anyAccidental
  | .exact pitch => pitch.expression

/-- The expression of a note. -/
def NotePattern.expression (note : NotePattern) : List Char :=
  recordStart ++ openingMarks ++ note.durationExpression ++ note.pitchExpression ++ recordRest ++
    recordEnd ++ skippedRecords

/-- The quantifier that is used for the bounds of a group: any number of times where the bounds
have none of their own. -/
def Bounds.usedQuantifier (bounds : Bounds) : Quantifier :=
  bounds.quantifier?.getD .zeroOrMore

namespace Pattern

mutual

/-- The match expression of a pattern. -/
def expression : Pattern → List Char
  | note spec => spec.expression
  | sequence children => sequenceExpression children
  | alternation branches => branchesExpression branches
  | group children bounds =>
    ['('] ++ sequenceExpression children ++ [')'] ++ bounds.usedQuantifier.suffix

/-- The expressions of the children of a node, one after the other. -/
def sequenceExpression : List Pattern → List Char
  | [] => []
  | child :: children => child.expression ++ sequenceExpression children

/-- The expressions of the branches of an alternation, with a bar between any two. -/
def branchesExpression : List (List Pattern) → List Char
  | [] => []
  | [branch] => sequenceExpression branch
  | branch :: branches => sequenceExpression branch ++ '|' :: branchesExpression branches

end

@[simp] theorem sequenceExpression_append (first second : List Pattern) :
    sequenceExpression (first ++ second) =
      sequenceExpression first ++ sequenceExpression second := by
  induction first with
  | nil => rfl
  | cons child children ih => simp [sequenceExpression, ih]

theorem branchesExpression_eq_intercalate (branches : List (List Pattern)) :
    branchesExpression branches = ['|'].intercalate (branches.map sequenceExpression) := by
  induction branches with
  | nil => rfl
  | cons branch branches ih =>
    cases branches with
    | nil => simp [branchesExpression]
    | cons next branches => simp [branchesExpression, ih, List.intercalate]

end Pattern

end MotifSearch
