import Mathlib.Data.List.Forall2
import MotifSearch.Proofs.Pattern.Preference
import MotifSearch.Proofs.Regex.Widening

/-!
# Patterns that ask for less

A note asks for less if its pitch, its duration or the accidental of its pitch is left open. A
pattern whose notes ask for less has more words, and it prefers more words to the empty one: a note
is never empty, so that it is the same choices that can be empty in both patterns.

## Main definitions

* `NotePattern.GeneralizedTo`, `Pattern.GeneralizedTo` — some notes are left open further
* `Regex.DominatedBy` — items that have more words, prefer more and can be empty as before

## Main results

* `NotePattern.meaning_le` — a note that asks for less has more words
* `Pattern.preferring_le` — a pattern that asks for less prefers more
-/

namespace MotifSearch

open Spelling
open Regex (itemsMeaning itemsMeaning_append itemsMeaning_singleton itemsNullable
  itemsNullable_append itemsNullable_singleton itemsPreferring itemsPreferring_append
  itemsPreferring_singleton itemsPreferring_of_not_nullable branchesMeaning branchesNullable
  branchesPreferring)

/-- A pitch that is left open further, altogether or in its accidental. -/
inductive Constraint.PitchGeneralizedTo : Constraint PitchPattern → Constraint PitchPattern → Prop
  | refl (pitch : Constraint PitchPattern) : PitchGeneralizedTo pitch pitch
  | any (pitch : Constraint PitchPattern) : PitchGeneralizedTo pitch .any
  | accidental (pitch : PitchPattern) :
      PitchGeneralizedTo (.exact pitch) (.exact { pitch with accidental := .any })

/-- A note that is left open further. -/
structure NotePattern.GeneralizedTo (note wide : NotePattern) : Prop where
  pitch : note.pitch.PitchGeneralizedTo wide.pitch
  duration : wide.duration = note.duration ∨ wide.duration = .any

/-- A pattern of which any notes are left open further. -/
inductive Pattern.GeneralizedTo : Pattern → Pattern → Prop
  | note {spec wide : NotePattern} (h : spec.GeneralizedTo wide) :
      GeneralizedTo (.note spec) (.note wide)
  | sequence {children others : List Pattern} (h : List.Forall₂ GeneralizedTo children others) :
      GeneralizedTo (.sequence children) (.sequence others)
  | alternation {branches others : List (List Pattern)}
      (h : List.Forall₂ (List.Forall₂ GeneralizedTo) branches others) :
      GeneralizedTo (.alternation branches) (.alternation others)
  | group {children others : List Pattern} (bounds : Bounds)
      (h : List.Forall₂ GeneralizedTo children others) :
      GeneralizedTo (.group children bounds) (.group others bounds)

/-! ### Notes -/

theorem Spelling.andThen_imp {first second wide wider : Spelling} {word : List Char}
    (hfirst : ∀ word, first word → wide word) (hsecond : ∀ word, second word → wider word)
    (h : first.andThen second word) : wide.andThen wider word := by
  obtain ⟨left, right, rfl, hleft, hright⟩ := h
  exact ⟨left, right, rfl, hfirst left hleft, hsecond right hright⟩

theorem Record.anyAccidental_of_spelling {constraint : Constraint Accidental} {word : List Char}
    (h : accidentalSpelling constraint word) : Record.anyAccidental word := by
  cases constraint with
  | any => exact h
  | exact accidental =>
    obtain rfl : word = _ := h
    cases accidental <;> decide

/-- A letter is spelled in every octave by a run of one letter. -/
theorem Record.anyLetters_kernLetters (letter : PitchLetter) (octave : Octave) :
    Record.anyLetters (kernLetters letter octave) := by
  have hrun : ∀ {n : Nat} {c d : Char}, d ∈ List.replicate n c → (d == c) = true :=
    fun hd => beq_iff_eq.mpr (List.eq_of_mem_replicate hd)
  have hne := kernLetters_ne_nil letter octave
  unfold kernLetters at hne ⊢
  split at hne
  · next h =>
    rw [if_pos h]
    exact ⟨letter.char, by cases letter <;> decide, hne, fun _ => hrun⟩
  · next h =>
    rw [if_neg h]
    exact ⟨letter.char.toUpper, by cases letter <;> decide, hne, fun _ => hrun⟩

theorem DottedDuration.anyDuration_of_spelling {duration : DottedDuration} {word : List Char}
    (h : duration.spelling word) : Record.anyDuration word := by
  obtain rfl : word = _ := h
  refine ⟨duration.code.kern, _, rfl, ⟨duration.code.kern_ne_nil, ?_⟩, ?_⟩
  · exact fun c hc => DurationCode.isDigit_of_mem_kern hc
  · exact fun c hc => beq_iff_eq.mpr (List.eq_of_mem_replicate hc)

namespace NotePattern

variable {note wide : NotePattern}

theorem durationSpelling_imp (h : note.GeneralizedTo wide) (word : List Char)
    (hword : note.durationSpelling word) : wide.durationSpelling word := by
  unfold durationSpelling at hword ⊢
  rcases h.duration with hsame | hany
  · rwa [hsame]
  · rw [hany]
    cases hduration : note.duration with
    | any => rwa [hduration] at hword
    | exact duration =>
      rw [hduration] at hword
      exact DottedDuration.anyDuration_of_spelling hword

theorem pitchSpelling_imp (h : note.GeneralizedTo wide) (word : List Char)
    (hword : note.pitchSpelling word) : wide.pitchSpelling word := by
  obtain ⟨pitch, _⟩ := note
  obtain ⟨pitch', _⟩ := wide
  cases h.pitch with
  | refl => exact hword
  | accidental pitch =>
    exact andThen_imp (fun _ => id) (fun _ => Record.anyAccidental_of_spelling) hword
  | any =>
    cases pitch with
    | any => exact hword
    | exact pitch =>
      refine andThen_imp ?_ (fun _ => Record.anyAccidental_of_spelling) hword
      rintro _ rfl
      exact Record.anyLetters_kernLetters pitch.letter pitch.octave

/-- A note that asks for less has more words. -/
theorem meaning_le (h : note.GeneralizedTo wide) : note.meaning ≤ wide.meaning := by
  refine Meaning.followedBy_mono ?_ le_rfl
  rintro atLineStart _ after ⟨lead, line, rfl, hlead, hline, hspelled⟩
  exact ⟨lead, line, rfl, hlead, hline, andThen_imp (fun _ => id) (fun _ =>
    andThen_imp (durationSpelling_imp h) fun _ => andThen_imp (pitchSpelling_imp h) fun _ => id)
    hspelled⟩

end NotePattern

/-! ### Items and branches -/

/-- Items that are dominated by others. These have more words, prefer more words to the empty one
and can be empty where the items can. -/
structure Regex.DominatedBy (items wide : List Regex) : Prop where
  meaning_le : itemsMeaning items ≤ itemsMeaning wide
  preferring_le : itemsPreferring items ≤ itemsPreferring wide
  nullable_eq : itemsNullable items = itemsNullable wide

namespace Regex.DominatedBy

open Meaning

variable {items wide others wider : List Regex}

theorem of_not_nullable (h : itemsMeaning items ≤ itemsMeaning wide)
    (hwide : itemsNullable wide = false) : DominatedBy items wide := by
  have hitems := itemsNullable_eq_false_of_le h hwide
  refine ⟨h, ?_, hitems.trans hwide.symm⟩
  rwa [itemsPreferring_of_not_nullable hitems, itemsPreferring_of_not_nullable hwide]

theorem append (h : DominatedBy items wide) (hothers : DominatedBy others wider) :
    DominatedBy (items ++ others) (wide ++ wider) := by
  have hmeaning : itemsMeaning (items ++ others) ≤ itemsMeaning (wide ++ wider) := by
    rw [itemsMeaning_append, itemsMeaning_append]
    exact followedBy_mono h.meaning_le hothers.meaning_le
  cases hnullable : itemsNullable (wide ++ wider) with
  | false => exact .of_not_nullable hmeaning hnullable
  | true =>
    have hsame : itemsNullable (items ++ others) = itemsNullable (wide ++ wider) := by
      rw [itemsNullable_append, itemsNullable_append, h.nullable_eq, hothers.nullable_eq]
    refine ⟨hmeaning, ?_, hsame⟩
    rw [itemsNullable_append, Bool.and_eq_true] at hnullable
    rw [itemsPreferring_append hnullable.1 hnullable.2,
      itemsPreferring_append (h.nullable_eq.trans hnullable.1)
        (hothers.nullable_eq.trans hnullable.2)]
    exact either_le
      ((followedBy_mono h.preferring_le hothers.meaning_le).trans le_either_left)
      (hothers.preferring_le.trans le_either_right)

theorem singleton_iff {item other : Regex} : DominatedBy [item] [other] ↔
    item.meaning ≤ other.meaning ∧ item.preferring ≤ other.preferring ∧
      item.nullable = other.nullable := by
  rw [← itemsMeaning_singleton item, ← itemsMeaning_singleton other,
    ← itemsPreferring_singleton item, ← itemsPreferring_singleton other,
    ← itemsNullable_singleton item, ← itemsNullable_singleton other]
  exact ⟨fun h => ⟨h.meaning_le, h.preferring_le, h.nullable_eq⟩, fun h => ⟨h.1, h.2.1, h.2.2⟩⟩

end Regex.DominatedBy

section Branches

open Meaning

variable {branches wide : List (List Regex)} (h : List.Forall₂ Regex.DominatedBy branches wide)
include h

theorem branchesMeaning_le_of_dominatedBy : branchesMeaning branches ≤ branchesMeaning wide := by
  induction h with
  | nil => exact le_rfl
  | cons hitems _ ih =>
    exact either_le (hitems.meaning_le.trans le_either_left) (ih.trans le_either_right)

theorem branchesNullable_eq_of_dominatedBy : branchesNullable branches = branchesNullable wide := by
  induction h with
  | nil => rfl
  | cons hitems _ ih =>
    rw [Regex.branchesNullable_cons, Regex.branchesNullable_cons, hitems.nullable_eq, ih]

/-- The first branch that can be empty is the same one. -/
theorem branchesPreferring_le_of_dominatedBy :
    branchesPreferring branches ≤ branchesPreferring wide := by
  induction h with
  | nil => exact le_rfl
  | cons hitems _ ih =>
    rw [branchesPreferring, branchesPreferring, hitems.nullable_eq]
    split
    · exact hitems.preferring_le
    · exact either_le (hitems.meaning_le.trans le_either_left) (ih.trans le_either_right)

end Branches

/-- What holds of lists one after the other holds of joined branches. -/
theorem forall₂_joinBranches {α β : Type} {holds : List α → List β → Prop}
    (happend : ∀ {items wide others wider}, holds items wide → holds others wider →
      holds (items ++ others) (wide ++ wider))
    {branches others : List (List α)} {wide wider : List (List β)}
    (h : List.Forall₂ holds branches wide) (hothers : List.Forall₂ holds others wider) :
    List.Forall₂ holds (joinBranches branches others) (joinBranches wide wider) := by
  induction h with
  | nil => exact hothers
  | cons hitems hrest ih =>
    cases hrest with
    | nil =>
      cases hothers with
      | nil => exact .nil
      | cons hnext hothers => exact .cons (happend hitems hnext) hothers
    | cons hnext hrest => exact .cons hitems ih

namespace Piece

/-- Flattened patterns the branches of which are dominated, one by one. -/
def DominatedBy (pieces wide : List Piece) : Prop :=
  List.Forall₂ Regex.DominatedBy (branches pieces) (branches wide)

variable {pieces wide others wider : List Piece}

theorem DominatedBy.append (h : DominatedBy pieces wide) (hothers : DominatedBy others wider) :
    DominatedBy (pieces ++ others) (wide ++ wider) := by
  rw [DominatedBy, branches_append, branches_append]
  exact forall₂_joinBranches Regex.DominatedBy.append h hothers

theorem DominatedBy.nil : DominatedBy [] [] :=
  .cons ⟨le_rfl, le_rfl, rfl⟩ .nil

theorem DominatedBy.bar (h : DominatedBy pieces wide) :
    DominatedBy (.bar :: pieces) (.bar :: wide) :=
  .cons ⟨le_rfl, le_rfl, rfl⟩ h

theorem preferring_tree_le (h : DominatedBy pieces wide) :
    (tree pieces).preferring ≤ (tree wide).preferring := by
  rw [tree, tree, Regex.preferring_ofBranches, Regex.preferring_ofBranches]
  exact branchesPreferring_le_of_dominatedBy h

/-- The bracket around a dominated choice, as often as a quantifier asks for. -/
theorem DominatedBy.group (quantifier : Quantifier) (h : DominatedBy pieces wide) :
    DominatedBy [.item (quantifier.loop (.group true (tree pieces)))]
      [.item (quantifier.loop (.group true (tree wide)))] := by
  have hmeaning : (tree pieces).meaning ≤ (tree wide).meaning := by
    rw [tree, tree, Regex.meaning_ofBranches (branches_ne_nil pieces),
      Regex.meaning_ofBranches (branches_ne_nil wide)]
    exact branchesMeaning_le_of_dominatedBy h
  have hpreferring := preferring_tree_le h
  have hnullable : (tree pieces).nullable = (tree wide).nullable := by
    rw [tree, tree, ← Regex.branchesNullable_eq
      (Regex.meaning_ofBranches (branches_ne_nil pieces)).symm, ← Regex.branchesNullable_eq
      (Regex.meaning_ofBranches (branches_ne_nil wide)).symm]
    exact branchesNullable_eq_of_dominatedBy h
  have hmany := Meaning.followedBy_mono hpreferring (Meaning.repeated_mono .zeroOrMore hmeaning)
  refine .cons (Regex.DominatedBy.singleton_iff.mpr ?_) .nil
  cases quantifier with
  | exactlyOne => exact ⟨hmeaning, hpreferring, hnullable⟩
  | optional => exact ⟨Meaning.repeated_mono .optional hmeaning, hpreferring, rfl⟩
  | oneOrMore => exact ⟨Meaning.iterated_mono hmeaning, hmany, hnullable⟩
  | zeroOrMore => exact ⟨Meaning.repeated_mono .zeroOrMore hmeaning, hmany, rfl⟩

end Piece

namespace Pattern

mutual

/-- A pattern that asks for less dominates, branch by branch. -/
theorem dominatedBy_pieces : (pattern : Pattern) → {wide : Pattern} →
    pattern.GeneralizedTo wide → Piece.DominatedBy pattern.pieces wide.pieces
  | note spec, _, .note h => by
    rw [Piece.DominatedBy, pieces, pieces, Piece.branches_map_item, Piece.branches_map_item]
    refine .cons (.of_not_nullable ?_ (NotePattern.itemsNullable_items _)) .nil
    rw [NotePattern.meaning_items, NotePattern.meaning_items]
    exact NotePattern.meaning_le h
  | sequence children, _, .sequence h => dominatedBy_sequencePieces children h
  | alternation branches, _, .alternation h => dominatedBy_branchesPieces branches h
  | group children _, _, .group bounds h =>
    (dominatedBy_sequencePieces children h).group bounds.usedQuantifier

theorem dominatedBy_sequencePieces : (children : List Pattern) → {others : List Pattern} →
    List.Forall₂ GeneralizedTo children others →
    Piece.DominatedBy (sequencePieces children) (sequencePieces others)
  | [], _, .nil => .nil
  | child :: children, _, .cons h hrest =>
    (dominatedBy_pieces child h).append (dominatedBy_sequencePieces children hrest)

theorem dominatedBy_branchesPieces : (branches : List (List Pattern)) →
    {others : List (List Pattern)} → List.Forall₂ (List.Forall₂ GeneralizedTo) branches others →
    Piece.DominatedBy (branchesPieces branches) (branchesPieces others)
  | [], _, .nil => .nil
  | [branch], _, .cons h .nil => dominatedBy_sequencePieces branch h
  | branch :: next :: branches, _, .cons h (.cons hnext hrest) =>
    (dominatedBy_sequencePieces branch h).append
      (dominatedBy_branchesPieces (next :: branches) (.cons hnext hrest)).bar

end

/-- A pattern that asks for less prefers more words to the empty one. -/
theorem preferring_le {pattern wide : Pattern} (h : pattern.GeneralizedTo wide) :
    pattern.syntaxTree.preferring ≤ wide.syntaxTree.preferring :=
  Piece.preferring_tree_le (dominatedBy_pieces pattern h)

end Pattern

end MotifSearch
