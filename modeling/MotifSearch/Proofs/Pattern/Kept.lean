import MotifSearch.Proofs.Pattern.Preference
import MotifSearch.Proofs.Pattern.Repetition
import MotifSearch.Proofs.Regex.Widening

/-!
# Any number of occurrences instead of the bounds

A pattern with its bounds taken at their word has fewer words than it has as it is compiled. What it
prefers to the empty match ends with something that is preferred as it is compiled, as long as no
branch of a choice is lost: whatever is cut off in front of it has been matched by groups and
branches that can be empty.

## Main definitions

* `Quantifier.preferred` — what a quantifier makes of what is preferred
* `Twofold.Fits` — what holds of the parts of all patterns

## Main results

* `branchesPreferring_le` — a choice that loses no branches
* `fits_parts` — all parts fit
* `settled_literalTree`, `preferring_literalTree_le` — what this says of patterns
-/

namespace MotifSearch

open Regex (itemsNullable itemsMeaning itemsPreferring branchesMeaning branchesPreferring
  Widened WidenedBy Settled isBracketed)

/-- What a quantifier makes of what is preferred to the empty word, given all words. -/
def Quantifier.preferred : Quantifier → Meaning → Meaning → Meaning
  | exactlyOne, _, preferring | optional, _, preferring => preferring
  | oneOrMore, meaning, preferring | zeroOrMore, meaning, preferring =>
    preferring.followedBy (meaning.repeated .zeroOrMore)

theorem Quantifier.preferring_loop (quantifier : Quantifier) (regex : Regex) :
    (quantifier.loop regex).preferring = quantifier.preferred regex.meaning regex.preferring := by
  cases quantifier <;> rfl

section Occurrences

open Meaning

variable {item : Regex} {meaning preferring : Meaning}

/-- Items that are widened by any number of words, the first of them a preferred one. -/
private abbrev WidenedByMany (meaning preferring : Meaning) (items : List Regex) : Prop :=
  Widened (meaning.repeated .zeroOrMore)
    (preferring.followedBy (meaning.repeated .zeroOrMore)) items

private theorem append_many {first second : List Regex}
    (hfirst : WidenedByMany meaning preferring first)
    (hsecond : WidenedByMany meaning preferring second) :
    WidenedByMany meaning preferring (first ++ second) := by
  refine hfirst.append hsecond repeated_followedBy_le ?_ le_rfl
  exact (le_of_eq (followedBy_assoc ..)).trans (followedBy_mono le_rfl repeated_followedBy_le)

/-- No character is in an empty class. -/
private theorem meaning_emptyClass : (Regex.chars (.oneOf [])).meaning = never := by
  ext atLineStart word after
  refine ⟨?_, False.elim⟩
  rintro ⟨c, hc, -⟩
  cases hc

variable (hmeaning : item.meaning ≤ meaning) (hpreferring : item.preferring ≤ preferring.endOf)
include hmeaning hpreferring

/-- An item with something preferred in it, and then any number of them. -/
private theorem preferring_followedBy_le :
    item.preferring.followedBy (item.meaning.repeated .zeroOrMore) ≤
      (preferring.followedBy (meaning.repeated .zeroOrMore)).endOf :=
  (followedBy_mono hpreferring (repeated_mono _ hmeaning)).trans endOf_followedBy_le

/-- What widens an item widens it with the same quantifier. -/
private theorem Quantifier.widened_loop (quantifier : Quantifier) :
    Widened (quantifier.repeated meaning) (quantifier.preferred meaning preferring)
      [quantifier.loop item] := by
  rw [Widened.singleton_iff, quantifier.meaning_loop, quantifier.preferring_loop]
  cases quantifier with
  | exactlyOne => exact ⟨hmeaning, hpreferring⟩
  | optional => exact ⟨repeated_mono .optional hmeaning, hpreferring⟩
  | oneOrMore =>
    exact ⟨iterated_mono hmeaning, preferring_followedBy_le hmeaning hpreferring⟩
  | zeroOrMore =>
    exact ⟨repeated_mono .zeroOrMore hmeaning, preferring_followedBy_le hmeaning hpreferring⟩

/-- Any number of an item widens it, and all loops of it. -/
private theorem widenedByMany_item : WidenedByMany meaning preferring [item] ∧
    ∀ times, WidenedByMany meaning preferring [.loop times true item] := by
  simp only [Widened.singleton_iff]
  have hmany : item.preferring ≤ (preferring.followedBy (meaning.repeated .zeroOrMore)).endOf := by
    refine hpreferring.trans (endOf_mono fun _ word _ hword => ?_)
    exact ⟨word, [], by simp, by simpa using hword, Or.inl rfl⟩
  refine ⟨⟨hmeaning.trans (le_repeated .zeroOrMore), hmany⟩, fun times => ⟨?_, ?_⟩⟩
  · exact (repeated_mono _ hmeaning).trans (repeated_le_zeroOrMore times)
  · cases times with
    | optional => exact hmany
    | oneOrMore | zeroOrMore => exact preferring_followedBy_le hmeaning hpreferring

private theorem widenedByMany_replicate (n : Nat) :
    WidenedByMany meaning preferring (List.replicate n item) := by
  induction n with
  | zero => exact .nil nothing_le_repeated
  | succ n ih => exact append_many (widenedByMany_item hmeaning hpreferring).1 ih

private theorem widenedByMany_atMost (n : Nat) :
    WidenedByMany meaning preferring (Regex.atMost n item) := by
  induction n with
  | zero => exact .nil nothing_le_repeated
  | succ n ih =>
    have hmore := append_many (widenedByMany_item hmeaning hpreferring).1 ih
    refine Widened.singleton_iff.mpr ⟨either_le nothing_le_repeated ?_, ?_⟩
    · rw [Regex.meaning, Regex.meaning_concat]
      exact hmore.meaning_le
    · refine le_trans (le_of_eq ?_) hmore.preferring_le
      exact Regex.preferring_concat _

/-- Any number of an item widens what its bounds spell. -/
private theorem widenedByMany_spelled (bounds : Bounds) :
    WidenedByMany meaning preferring (bounds.spelled item) := by
  obtain ⟨-, hloop⟩ := widenedByMany_item hmeaning hpreferring
  have hcopies := widenedByMany_replicate hmeaning hpreferring
  unfold Bounds.spelled
  dsimp only
  split
  · split
    · exact hloop .zeroOrMore
    · exact append_many (hcopies _) (hloop .oneOrMore)
  · split
    · exact append_many (hcopies _) (widenedByMany_atMost hmeaning hpreferring _)
    · have hnever : ∀ {wide : Meaning}, (Regex.chars (.oneOf [])).meaning ≤ wide := by
        rw [meaning_emptyClass]
        exact never_le
      exact Widened.singleton_iff.mpr ⟨hnever, hnever⟩

/-- The quantifier that is used for the bounds of a group widens what the bounds ask for. -/
private theorem widened_literal (bounds : Bounds) :
    Widened (bounds.usedQuantifier.repeated meaning)
      (bounds.usedQuantifier.preferred meaning preferring) (bounds.literal item) := by
  rw [Bounds.usedQuantifier, Bounds.literal]
  cases bounds.quantifier? with
  | some quantifier => exact quantifier.widened_loop hmeaning hpreferring
  | none => exact widenedByMany_spelled hmeaning hpreferring bounds

end Occurrences

section Settled

variable {body : Regex} (h : Settled body)
include h

private theorem settled_atMost (n : Nat) :
    ∀ item ∈ Regex.atMost n (.group true body), item.isBracketed = true ∧ Settled item := by
  induction n with
  | zero => simp [Regex.atMost]
  | succ n ih =>
    have hitems := List.forall_mem_cons.mpr ⟨⟨rfl, Settled.group h⟩, ih⟩
    exact List.forall_mem_singleton.mpr ⟨rfl, .loop (Regex.settled_concat hitems)⟩

/-- The copies of a bracket that bounds ask for are settled brackets. -/
private theorem settled_literal (bounds : Bounds)
    (hnullable : itemsNullable (bounds.literal (.group true body)) = true) :
    ∀ item ∈ bounds.literal (.group true body), item.isBracketed = true ∧ Settled item := by
  have hcopies : ∀ n, ∀ item ∈ List.replicate n (Regex.group true body),
      item.isBracketed = true ∧ Settled item := by
    intro n item hitem
    obtain rfl := List.eq_of_mem_replicate hitem
    exact ⟨rfl, .group h⟩
  have hloop : ∀ times, ∀ item ∈ [Regex.loop times true (.group true body)],
      item.isBracketed = true ∧ Settled item :=
    fun times => List.forall_mem_singleton.mpr ⟨rfl, .loop h⟩
  unfold Bounds.literal at hnullable ⊢
  split
  · next quantifier _ =>
    cases quantifier with
    | exactlyOne => exact hcopies 1
    | optional | oneOrMore | zeroOrMore => exact hloop _
  · next hnone =>
    rw [hnone] at hnullable
    unfold Bounds.spelled at hnullable ⊢
    dsimp only at hnullable ⊢
    split
    · split
      · exact hloop .zeroOrMore
      · exact List.forall_mem_append.mpr ⟨hcopies _, hloop .oneOrMore⟩
    · next most hmost =>
      split
      · exact List.forall_mem_append.mpr ⟨hcopies _, settled_atMost h _⟩
      · next hlt =>
        rw [hmost] at hnullable
        simp [hlt, Regex.nullable] at hnullable

end Settled

namespace Twofold

/-- What holds of the parts of all patterns: they have more words as they are compiled, they keep
what they find if no branches in them are lost, and their items are brackets if they can be
empty. -/
structure Fits (part : Twofold) : Prop where
  meaning_le : itemsMeaning part.literal ≤ itemsMeaning part.compiled
  widened : part.kept = true → WidenedBy part.compiled part.literal
  settled : itemsNullable part.literal = true →
    ∀ item ∈ part.literal, item.isBracketed = true ∧ Settled item

theorem fits_note (spec : NotePattern) : Fits (note spec) := by
  have hnullable := spec.itemsNullable_items
  exact ⟨le_rfl, fun _ => .of_not_nullable le_rfl hnullable,
    fun h => absurd h (by simp [note, hnullable])⟩

section Branch

variable {branch : List Twofold} (h : ∀ part ∈ branch, part.Fits)
include h

theorem itemsMeaning_flatMap_le :
    itemsMeaning (branch.flatMap literal) ≤ itemsMeaning (branch.flatMap compiled) := by
  induction branch with
  | nil => exact le_rfl
  | cons part branch ih =>
    obtain ⟨hpart, hbranch⟩ := List.forall_mem_cons.mp h
    rw [List.flatMap_cons, List.flatMap_cons, Regex.itemsMeaning_append, Regex.itemsMeaning_append]
    exact Meaning.followedBy_mono hpart.meaning_le (ih hbranch)

theorem widenedBy_flatMap (hkept : branch.all kept = true) :
    WidenedBy (branch.flatMap compiled) (branch.flatMap literal) := by
  induction branch with
  | nil => exact .nil le_rfl
  | cons part branch ih =>
    obtain ⟨hpart, hbranch⟩ := List.forall_mem_cons.mp h
    rw [List.all_cons, Bool.and_eq_true] at hkept
    exact (hpart.widened hkept.1).append_widenedBy (ih hbranch hkept.2)

theorem settled_flatMap (hnullable : itemsNullable (branch.flatMap literal) = true) :
    ∀ item ∈ branch.flatMap literal, item.isBracketed = true ∧ Settled item := by
  intro item hitem
  obtain ⟨part, hpart, hitem⟩ := List.mem_flatMap.mp hitem
  refine (h part hpart).settled ?_ item hitem
  rw [Regex.itemsNullable, List.all_flatMap] at hnullable
  exact List.all_eq_true.mp hnullable part hpart

end Branch

section Choice

variable {branches : List (List Twofold)} (h : ∀ branch ∈ branches, ∀ part ∈ branch, part.Fits)
include h

theorem branchesMeaning_le :
    branchesMeaning (branches.map fun branch => branch.flatMap literal) ≤
      branchesMeaning (branches.map fun branch => branch.flatMap compiled) := by
  induction branches with
  | nil => exact le_rfl
  | cons branch branches ih =>
    obtain ⟨hbranch, hbranches⟩ := List.forall_mem_cons.mp h
    exact Meaning.either_le ((itemsMeaning_flatMap_le hbranch).trans Meaning.le_either_left)
      ((ih hbranches).trans Meaning.le_either_right)

/-- What is preferred in a choice that loses no branches ends with something that is preferred in
the wider one. -/
theorem branchesPreferring_le (hkept : keepsChoice branches = true) :
    branchesPreferring (branches.map fun branch => branch.flatMap literal) ≤
      (branchesPreferring (branches.map fun branch => branch.flatMap compiled)).endOf := by
  induction branches with
  | nil => exact Meaning.never_le
  | cons branch branches ih =>
    obtain ⟨hbranch, hbranches⟩ := List.forall_mem_cons.mp h
    have hle := itemsMeaning_flatMap_le hbranch
    rw [List.map_cons, List.map_cons, branchesPreferring, branchesPreferring]
    cases hcompiled : itemsNullable (branch.flatMap compiled) with
    | false =>
      rw [keepsChoice, hcompiled] at hkept
      rw [Regex.itemsNullable_eq_false_of_le hle hcompiled]
      exact Meaning.either_le (hle.trans (Meaning.le_either_left.trans Meaning.le_endOf))
        ((ih hbranches hkept).trans (Meaning.endOf_mono Meaning.le_either_right))
    | true =>
      rw [keepsChoice, hcompiled, if_pos rfl, Bool.and_eq_true, Bool.or_eq_true] at hkept
      have hwidened := (widenedBy_flatMap hbranch hkept.1).preferring_le
      cases hliteral : itemsNullable (branch.flatMap literal) with
      | true => exact hwidened
      | false =>
        -- The branch cannot be empty at its word, but there are none after it.
        rw [List.isEmpty_iff.mp (hkept.2.resolve_right (by simp [hliteral]))]
        rw [Regex.itemsPreferring_of_not_nullable hliteral] at hwidened
        exact Meaning.either_le hwidened Meaning.never_le

end Choice

section Group

variable {branches : List (List Twofold)} (h : ∀ branch ∈ branches, ∀ part ∈ branch, part.Fits)
include h

theorem settledBranches_literal :
    Regex.SettledBranches (branches.map fun branch => branch.flatMap literal) := by
  intro items hitems hnullable
  obtain ⟨branch, hbranch, rfl⟩ := List.mem_map.mp hitems
  exact settled_flatMap (h branch hbranch) hnullable

theorem meaning_bracketed_le (hne : branches ≠ []) :
    (bracketed literal branches).meaning ≤ (bracketed compiled branches).meaning := by
  rw [bracketed, bracketed, Regex.meaning, Regex.meaning, Regex.meaning_ofBranches (by simpa),
    Regex.meaning_ofBranches (by simpa)]
  exact branchesMeaning_le h

theorem preferring_bracketed_le (hkept : keepsChoice branches = true) :
    (bracketed literal branches).preferring ≤ (bracketed compiled branches).preferring.endOf := by
  rw [bracketed, bracketed, Regex.preferring, Regex.preferring, Regex.preferring_ofBranches,
    Regex.preferring_ofBranches]
  exact branchesPreferring_le h hkept

theorem fits_group (bounds : Bounds) (hne : branches ≠ []) : Fits (group branches bounds) := by
  have hmeaning := meaning_bracketed_le h hne
  have hcompiled : itemsMeaning (group branches bounds).compiled =
      bounds.usedQuantifier.repeated (bracketed compiled branches).meaning := by
    rw [group, Pattern.usedOccurrences, Regex.itemsMeaning_singleton, Quantifier.meaning_loop]
  have hpreferred : itemsPreferring (group branches bounds).compiled =
      bounds.usedQuantifier.preferred (bracketed compiled branches).meaning
        (bracketed compiled branches).preferring := by
    rw [group, Pattern.usedOccurrences, Regex.itemsPreferring_singleton,
      Quantifier.preferring_loop]
  refine ⟨?_, fun hkept => ?_, ?_⟩
  · rw [hcompiled]
    exact (widened_literal hmeaning Meaning.le_endOf bounds).meaning_le
  · rw [WidenedBy, hcompiled, hpreferred]
    exact widened_literal hmeaning (preferring_bracketed_le h hkept) bounds
  · exact settled_literal (settledBranches_literal h).ofBranches bounds

end Group

end Twofold

namespace Pattern

open Twofold (Fits)

mutual

/-- The parts of all patterns fit. -/
theorem fits_parts : (pattern : Pattern) → ∀ branch ∈ pattern.parts, ∀ part ∈ branch, Fits part
  | note spec => by simpa [parts] using Twofold.fits_note spec
  | sequence children => fits_sequenceParts children
  | alternation branches => fits_branchesParts branches
  | group children bounds => by
    simpa [parts] using Twofold.fits_group (fits_sequenceParts children) bounds
      (sequenceParts_ne_nil children)

theorem fits_sequenceParts : (children : List Pattern) →
    ∀ branch ∈ sequenceParts children, ∀ part ∈ branch, Fits part
  | [] => by simp [sequenceParts]
  | child :: children =>
    @forall_mem_joinBranches Twofold (fun branch => ∀ part ∈ branch, Fits part)
      (fun hfirst hsecond => List.forall_mem_append.mpr ⟨hfirst, hsecond⟩) _ _
      (fits_parts child) (fits_sequenceParts children)

theorem fits_branchesParts : (branches : List (List Pattern)) →
    ∀ branch ∈ branchesParts branches, ∀ part ∈ branch, Fits part
  | [] => by simp [branchesParts]
  | [branch] => fits_sequenceParts branch
  | branch :: next :: branches => by
    rw [branchesParts]
    · exact List.forall_mem_append.mpr
        ⟨fits_sequenceParts branch, fits_branchesParts (next :: branches)⟩
    · simp

end

theorem settled_literalTree (pattern : Pattern) : Settled pattern.literalTree := by
  rw [literal_parts]
  exact (Twofold.settledBranches_literal pattern.fits_parts).ofBranches

/-- What a pattern prefers with its bounds taken at their word ends with something that it prefers
as it is compiled, if no branches are lost. -/
theorem preferring_literalTree_le {pattern : Pattern} (h : pattern.KeepsChoices) :
    pattern.literalTree.preferring ≤ pattern.syntaxTree.preferring.endOf := by
  rw [literal_parts, compiled_parts, Regex.preferring_ofBranches, Regex.preferring_ofBranches]
  exact Twofold.branchesPreferring_le pattern.fits_parts h

end Pattern

end MotifSearch
