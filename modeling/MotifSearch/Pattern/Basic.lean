import MotifSearch.Note.Accidental
import MotifSearch.Note.Duration
import MotifSearch.Note.Pitch

/-!
# Patterns

A pattern is a tree of notes, sequences, alternations and groups. Every property of a note may be
left open; a note whose pitch is open has no letter, octave or accidental at all, and one whose
duration is open has neither code nor dots.

## Main definitions

* `Constraint` — a property that is given or left open
* `NotePattern` — what a pattern asks of one note
* `Bounds`, `Bounds.quantifier?` — how often a group occurs
* `Pattern` — the tree
* `Pattern.containsNote` — whether there is a note in the tree

## Main results

* `anyContainsNote_eq_any`, `branchesContainNote_eq_any` — the searches below a node in terms of
  `List.any`
-/

namespace MotifSearch

/-- A property of a note that is left open or given exactly. -/
inductive Constraint (α : Type) where
  | any
  | exact (value : α)
  deriving DecidableEq

/-- A given pitch, whose accidental may be left open. -/
structure PitchPattern where
  letter : PitchLetter
  octave : Octave
  accidental : Constraint Accidental
  deriving DecidableEq

/-- A given duration. -/
structure DottedDuration where
  code : DurationCode
  dots : UInt8
  deriving DecidableEq

/-- What a pattern asks of one note. -/
structure NotePattern where
  pitch : Constraint PitchPattern
  duration : Constraint DottedDuration
  deriving DecidableEq

/-- How often a group may occur; a missing bound was not given. -/
structure Bounds where
  min : Option UInt32
  max : Option UInt32
  deriving DecidableEq

/-- The numbers of occurrences that a match expression can ask for. -/
inductive Quantifier where
  | exactlyOne
  | optional
  | oneOrMore
  | zeroOrMore
  deriving DecidableEq

namespace Quantifier

/-- The name of a quantifier. -/
def name : Quantifier → String
  | exactlyOne => "exactly_one"
  | optional => "optional"
  | oneOrMore => "one_or_more"
  | zeroOrMore => "zero_or_more"

/-- The mark that follows the closing bracket of a group. -/
def suffix : Quantifier → List Char
  | exactlyOne => []
  | optional => ['?']
  | oneOrMore => ['+']
  | zeroOrMore => ['*']

end Quantifier

/-- The quantifier that says the same as the bounds, for those bounds that have one. -/
def Bounds.quantifier? : Bounds → Option Quantifier
  | ⟨none, none⟩ => some .exactlyOne
  | ⟨some 0, some 1⟩ => some .optional
  | ⟨some 1, none⟩ => some .oneOrMore
  | ⟨some 0, none⟩ => some .zeroOrMore
  | _ => none

/-- A pattern. -/
inductive Pattern where
  /-- One note. -/
  | note (spec : NotePattern)
  /-- The children one after the other. -/
  | sequence (children : List Pattern)
  /-- One of the branches, each of them a sequence. -/
  | alternation (branches : List (List Pattern))
  /-- The children one after the other, repeated within the bounds. -/
  | group (children : List Pattern) (bounds : Bounds)

namespace Pattern

mutual

/-- Whether there is a note anywhere in a pattern. -/
def containsNote : Pattern → Bool
  | note _ => true
  | sequence children => anyContainsNote children
  | alternation branches => branchesContainNote branches
  | group children _ => anyContainsNote children

/-- Whether there is a note in one of the children. -/
def anyContainsNote : List Pattern → Bool
  | [] => false
  | child :: children => child.containsNote || anyContainsNote children

/-- Whether there is a note in one of the branches. -/
def branchesContainNote : List (List Pattern) → Bool
  | [] => false
  | branch :: branches => anyContainsNote branch || branchesContainNote branches

end

theorem anyContainsNote_eq_any (children : List Pattern) :
    anyContainsNote children = children.any containsNote := by
  induction children with
  | nil => rfl
  | cons child children ih => simp [anyContainsNote, ih]

theorem branchesContainNote_eq_any (branches : List (List Pattern)) :
    branchesContainNote branches = branches.any fun branch => branch.any containsNote := by
  induction branches with
  | nil => rfl
  | cons branch branches ih => simp [branchesContainNote, anyContainsNote_eq_any, ih]

end Pattern

end MotifSearch
