import MotifSearch.Proofs.Pattern.Lines
import MotifSearch.Proofs.Regex.SharedPreference

/-!
# What a pattern prefers to the empty match

The words that a pattern prefers to the empty one are put together from the meanings of its notes,
like all of its words. So what is compositional holds of them as well.

## Main results

* `settled_syntaxTree` — it is settled whether a pattern can be empty
* `holds_preferring` — what is compositional and holds of all notes holds of what patterns prefer
-/

namespace MotifSearch

open Regex

/-- What holds of the meanings of some items, one after the other, and of what they prefer to the
empty word. -/
private structure ItemsHold (holds : Meaning → Prop) (items : List Regex) : Prop where
  meaning : holds (itemsMeaning items)
  preferring : holds (itemsPreferring items)
  settled : itemsNullable items = true → ∀ item ∈ items, item.isBracketed = true ∧ Settled item

namespace Meaning.Compositional

variable {holds : Meaning → Prop} (h : Compositional holds)
include h

private theorem branchesMeaning {branches : List (List Regex)}
    (hbranches : ∀ items ∈ branches, ItemsHold holds items) : holds (branchesMeaning branches) := by
  induction branches with
  | nil => exact h.never
  | cons items branches ih =>
    obtain ⟨hitems, hrest⟩ := List.forall_mem_cons.mp hbranches
    exact h.either hitems.meaning (ih hrest)

private theorem branchesPreferring {branches : List (List Regex)}
    (hbranches : ∀ items ∈ branches, ItemsHold holds items) :
    holds (branchesPreferring branches) := by
  induction branches with
  | nil => exact h.never
  | cons items branches ih =>
    obtain ⟨hitems, hrest⟩ := List.forall_mem_cons.mp hbranches
    rw [Regex.branchesPreferring]
    split
    · exact hitems.preferring
    · exact h.either hitems.meaning (ih hrest)

private theorem itemsHold_append {first second : List Regex} (hfirst : ItemsHold holds first)
    (hsecond : ItemsHold holds second) : ItemsHold holds (first ++ second) := by
  have hmeaning : holds (itemsMeaning (first ++ second)) := by
    rw [itemsMeaning_append]
    exact h.followedBy hfirst.meaning hsecond.meaning
  cases hnullable : itemsNullable (first ++ second) with
  | false =>
    refine ⟨hmeaning, ?_, fun hother => absurd hother (by simp [hnullable])⟩
    rwa [itemsPreferring_of_not_nullable hnullable]
  | true =>
    rw [itemsNullable_append, Bool.and_eq_true] at hnullable
    refine ⟨hmeaning, ?_, fun _ => ?_⟩
    · rw [itemsPreferring_append hnullable.1 hnullable.2]
      exact h.either (h.followedBy hfirst.preferring hsecond.meaning) hsecond.preferring
    · exact List.forall_mem_append.mpr ⟨hfirst.settled hnullable.1, hsecond.settled hnullable.2⟩

private theorem itemsHold_group (quantifier : Quantifier) {pieces : List Piece}
    (hpieces : ∀ items ∈ Piece.branches pieces, ItemsHold holds items) :
    ItemsHold holds [quantifier.loop (.group true (Piece.tree pieces))] := by
  have hmeaning : holds (Piece.tree pieces).meaning := by
    rw [Piece.tree, meaning_ofBranches (Piece.branches_ne_nil pieces)]
    exact h.branchesMeaning hpieces
  have hpreferring : holds (Piece.tree pieces).preferring := by
    rw [Piece.tree, preferring_ofBranches]
    exact h.branchesPreferring hpieces
  have hsettled : Settled (Piece.tree pieces) :=
    SettledBranches.ofBranches fun items hitems => (hpieces items hitems).settled
  have hmore := h.followedBy hpreferring (h.repeated .zeroOrMore hmeaning)
  refine ⟨?_, ?_, fun _ => List.forall_mem_singleton.mpr ?_⟩
  · rw [itemsMeaning_singleton, quantifier.meaning_loop]
    exact h.repeated quantifier hmeaning
  · rw [itemsPreferring_singleton]
    cases quantifier with
    | exactlyOne | optional => exact hpreferring
    | oneOrMore | zeroOrMore => exact hmore
  · cases quantifier with
    | exactlyOne => exact ⟨rfl, .group hsettled⟩
    | optional | oneOrMore | zeroOrMore => exact ⟨rfl, .loop hsettled⟩

end Meaning.Compositional

/-- A note is never empty. -/
theorem NotePattern.itemsNullable_items (note : NotePattern) :
    itemsNullable note.items = false := by
  simp [NotePattern.items, Regex.plain, Regex.nullable]

private theorem itemsHold_of_mem_branches {holds : Meaning → Prop}
    (h : Meaning.Compositional holds) (hnote : ∀ note : NotePattern, holds note.meaning)
    (pattern : Pattern) : ∀ items ∈ Piece.branches pattern.pieces, ItemsHold holds items := by
  refine Pattern.holds_of_mem_branches ⟨?_, h.itemsHold_append, fun note => ?_, h.itemsHold_group⟩
    pattern
  · exact ⟨h.nothing, h.never, fun _ => by simp⟩
  · have hnullable := note.itemsNullable_items
    have hmeaning := hnote note
    rw [← note.meaning_items] at hmeaning
    refine ⟨hmeaning, ?_, fun hother => absurd hother (by simp [hnullable])⟩
    rwa [itemsPreferring_of_not_nullable hnullable]

namespace Pattern

/-- It is settled whether a pattern can be empty. -/
theorem settled_syntaxTree (pattern : Pattern) : Settled pattern.syntaxTree := by
  have htrivial : Meaning.Compositional fun _ => True := by constructor <;> intros <;> trivial
  exact SettledBranches.ofBranches fun items hitems =>
    (itemsHold_of_mem_branches htrivial (fun _ => trivial) pattern items hitems).settled

/-- What is compositional and holds of all notes holds of what a pattern prefers to the empty
match. -/
theorem holds_preferring {holds : Meaning → Prop} (h : Meaning.Compositional holds)
    (hnote : ∀ note : NotePattern, holds note.meaning) (pattern : Pattern) :
    holds pattern.syntaxTree.preferring := by
  rw [syntaxTree, Piece.tree, preferring_ofBranches]
  exact h.branchesPreferring (itemsHold_of_mem_branches h hnote pattern)

end Pattern

end MotifSearch
