import MotifSearch.Proofs.Pattern.Meaning
import MotifSearch.Proofs.Regex.SharedPreference

/-!
# Bounds taken at their word

Bounds without a quantifier of their own can be spelled out: as many copies of a group as there have
to be, and then as many as may be left out. The quantifier that is used instead asks for any number
of copies, so that a group that has to occur can be empty. Where that makes a branch of a choice
empty, the branches after it are not tried any more, and what only they match is lost.

## Main definitions

* `Bounds.spelled`, `Bounds.literal` — the copies of a group that the bounds ask for
* `Pattern.piecesWith`, `Pattern.literalTree` — a pattern with other copies of its groups
* `Twofold` — a note or a group of a pattern in both readings
* `Twofold.keepsChoice` — no branch of a choice is lost because of what is used instead

## Main results

* `compiled_parts`, `literal_parts` — the parts make up both readings
-/

namespace MotifSearch

open Regex (itemsNullable)

/-- At most a number of copies of an item. -/
def Regex.atMost : Nat → Regex → List Regex
  | 0, _ => []
  | n + 1, item => [.loop .optional true (.group true (.concat (item :: atMost n item)))]

/-- As many copies of an item as bounds ask for. Without a lower bound there need not be any, and
without an upper bound there may be any number. No number is within bounds that cross. -/
def Bounds.spelled (bounds : Bounds) (item : Regex) : List Regex :=
  let least := (bounds.min.getD 0).toNat
  match bounds.max with
  | none =>
    match least with
    | 0 => [.loop .zeroOrMore true item]
    | more + 1 => List.replicate more item ++ [.loop .oneOrMore true item]
  | some most =>
    if least ≤ most.toNat then
      List.replicate least item ++ Regex.atMost (most.toNat - least) item
    else [.chars (.oneOf [])]

/-- An item as often as bounds ask for: with the quantifier that says the same, or else spelled
out. -/
def Bounds.literal (bounds : Bounds) (item : Regex) : List Regex :=
  match bounds.quantifier? with
  | some quantifier => [quantifier.loop item]
  | none => bounds.spelled item

namespace Pattern

section Pieces

variable (occurrences : Bounds → Regex → List Regex)

mutual

/-- A pattern flattened, where a group occurs in some other way. -/
def piecesWith : Pattern → List Piece
  | note spec => spec.items.map .item
  | sequence children => sequencePiecesWith children
  | alternation branches => branchesPiecesWith branches
  | group children bounds =>
    (occurrences bounds (.group true (Piece.tree (sequencePiecesWith children)))).map .item

def sequencePiecesWith : List Pattern → List Piece
  | [] => []
  | child :: children => child.piecesWith ++ sequencePiecesWith children

def branchesPiecesWith : List (List Pattern) → List Piece
  | [] => []
  | [branch] => sequencePiecesWith branch
  | branch :: branches => sequencePiecesWith branch ++ .bar :: branchesPiecesWith branches

end

end Pieces

/-- An item as often as its bounds ask for in a compiled pattern. -/
def usedOccurrences (bounds : Bounds) (item : Regex) : List Regex :=
  [bounds.usedQuantifier.loop item]

mutual

theorem pieces_eq_piecesWith : (pattern : Pattern) →
    pattern.pieces = pattern.piecesWith usedOccurrences
  | note spec => rfl
  | sequence children => sequencePieces_eq children
  | alternation branches => branchesPieces_eq branches
  | group children bounds => by
    rw [pieces, piecesWith, sequencePieces_eq children]
    rfl

theorem sequencePieces_eq : (children : List Pattern) →
    sequencePieces children = sequencePiecesWith usedOccurrences children
  | [] => rfl
  | child :: children => by
    rw [sequencePieces, sequencePiecesWith, pieces_eq_piecesWith child, sequencePieces_eq children]

theorem branchesPieces_eq : (branches : List (List Pattern)) →
    branchesPieces branches = branchesPiecesWith usedOccurrences branches
  | [] => rfl
  | [branch] => sequencePieces_eq branch
  | branch :: next :: branches => by
    rw [branchesPieces, branchesPiecesWith, sequencePieces_eq branch,
      branchesPieces_eq (next :: branches)]
    · simp
    · simp

end

/-- The syntax tree of a pattern whose bounds are all taken at their word. -/
def literalTree (pattern : Pattern) : Regex :=
  Piece.tree (pattern.piecesWith Bounds.literal)

end Pattern

/-- A note or a group of a pattern, its items in both readings, and whether it keeps what it finds
from the one to the other. -/
structure Twofold where
  literal : List Regex
  compiled : List Regex
  kept : Bool

namespace Twofold

/-- The choice between the branches of some parts, in brackets. -/
def bracketed (reading : Twofold → List Regex) (branches : List (List Twofold)) : Regex :=
  .group true (.ofBranches (branches.map fun branch => branch.flatMap reading))

/-- No branch of a choice is lost: the first branch that can be empty as it is compiled is the last
one or can be empty at its word as well, and its parts lose no branches. -/
def keepsChoice : List (List Twofold) → Bool
  | [] => true
  | branch :: branches =>
    if itemsNullable (branch.flatMap compiled) then
      branch.all kept && (branches.isEmpty || itemsNullable (branch.flatMap literal))
    else keepsChoice branches

/-- A note has the same items in both readings. -/
def note (spec : NotePattern) : Twofold :=
  ⟨spec.items, spec.items, true⟩

/-- A group. -/
def group (branches : List (List Twofold)) (bounds : Bounds) : Twofold where
  literal := bounds.literal (bracketed literal branches)
  compiled := Pattern.usedOccurrences bounds (bracketed compiled branches)
  kept := keepsChoice branches

end Twofold

namespace Pattern

mutual

/-- The branches of a flattened pattern, each given by its parts. -/
def parts : Pattern → List (List Twofold)
  | note spec => [[.note spec]]
  | sequence children => sequenceParts children
  | alternation branches => branchesParts branches
  | group children bounds => [[.group (sequenceParts children) bounds]]

def sequenceParts : List Pattern → List (List Twofold)
  | [] => [[]]
  | child :: children => joinBranches child.parts (sequenceParts children)

def branchesParts : List (List Pattern) → List (List Twofold)
  | [] => [[]]
  | [branch] => sequenceParts branch
  | branch :: branches => sequenceParts branch ++ branchesParts branches

end

/-- No branch of a choice in a pattern is lost because of the quantifiers that are used instead of
its bounds. -/
def KeepsChoices (pattern : Pattern) : Prop :=
  Twofold.keepsChoice pattern.parts = true

instance (pattern : Pattern) : Decidable pattern.KeepsChoices :=
  inferInstanceAs (Decidable (_ = true))

end Pattern

/-- A reading of parts: the items of a note, and a group as often as it occurs. -/
structure Twofold.Reads (reading : Twofold → List Regex)
    (occurrences : Bounds → Regex → List Regex) : Prop where
  note (spec : NotePattern) : reading (.note spec) = spec.items
  group (branches : List (List Twofold)) (bounds : Bounds) :
    reading (.group branches bounds) = occurrences bounds (bracketed reading branches)

theorem Twofold.reads_compiled : Reads compiled Pattern.usedOccurrences :=
  ⟨fun _ => rfl, fun _ _ => rfl⟩

theorem Twofold.reads_literal : Reads literal Bounds.literal :=
  ⟨fun _ => rfl, fun _ _ => rfl⟩

/-- A reading of parts whose branches follow each other. -/
theorem map_flatMap_joinBranches {α β : Type} (reading : α → List β)
    (first second : List (List α)) :
    (joinBranches first second).map (fun branch => branch.flatMap reading) =
      joinBranches (first.map fun branch => branch.flatMap reading)
        (second.map fun branch => branch.flatMap reading) := by
  fun_induction joinBranches first second with
  | case1 => rfl
  | case2 last others => cases others <;> simp [joinBranches]
  | case3 branch next branches others ih =>
    rw [List.map_cons, ih]
    rfl

namespace Pattern

variable {occurrences : Bounds → Regex → List Regex} {reading : Twofold → List Regex}

mutual

/-- The parts of a pattern make up its branches. -/
private theorem map_parts (h : Twofold.Reads reading occurrences) : (pattern : Pattern) →
    pattern.parts.map (fun branch => branch.flatMap reading) =
      Piece.branches (pattern.piecesWith occurrences)
  | note spec => by
    rw [parts, piecesWith, Piece.branches_map_item]
    simp [h.note]
  | sequence children => map_sequenceParts h children
  | alternation branches => map_branchesParts h branches
  | group children bounds => by
    rw [parts, piecesWith, Piece.branches_map_item, Piece.tree, ← map_sequenceParts h children]
    simp [h.group, Twofold.bracketed]

private theorem map_sequenceParts (h : Twofold.Reads reading occurrences) :
    (children : List Pattern) →
    (sequenceParts children).map (fun branch => branch.flatMap reading) =
      Piece.branches (sequencePiecesWith occurrences children)
  | [] => rfl
  | child :: children => by
    rw [sequenceParts, sequencePiecesWith, map_flatMap_joinBranches, Piece.branches_append,
      map_parts h child, map_sequenceParts h children]

private theorem map_branchesParts (h : Twofold.Reads reading occurrences) :
    (branches : List (List Pattern)) →
    (branchesParts branches).map (fun branch => branch.flatMap reading) =
      Piece.branches (branchesPiecesWith occurrences branches)
  | [] => rfl
  | [branch] => map_sequenceParts h branch
  | branch :: next :: branches => by
    rw [branchesParts, branchesPiecesWith, Piece.branches_append, Piece.branches,
      joinBranches_nil_cons (Piece.branches_ne_nil _), List.map_append, map_sequenceParts h branch,
      map_branchesParts h (next :: branches)]
    · simp
    · simp

end

theorem sequenceParts_ne_nil (children : List Pattern) : sequenceParts children ≠ [] := by
  intro hnil
  have hmap := map_sequenceParts Twofold.reads_literal children
  rw [hnil] at hmap
  exact Piece.branches_ne_nil _ hmap.symm

/-- The parts make up the tree of a pattern as it is compiled. -/
theorem compiled_parts (pattern : Pattern) : pattern.syntaxTree =
    .ofBranches (pattern.parts.map fun branch => branch.flatMap Twofold.compiled) := by
  rw [syntaxTree, Piece.tree, pieces_eq_piecesWith, map_parts Twofold.reads_compiled]

/-- The parts make up the tree of a pattern whose bounds are taken at their word. -/
theorem literal_parts (pattern : Pattern) : pattern.literalTree =
    .ofBranches (pattern.parts.map fun branch => branch.flatMap Twofold.literal) := by
  rw [literalTree, Piece.tree, map_parts Twofold.reads_literal]

end Pattern

end MotifSearch
