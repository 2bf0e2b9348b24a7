import Mathlib.Order.Basic
import MotifSearch.Proofs.Regex.SharedPreference

/-!
# Wider meanings

A meaning is wider than another one if it has all of its words. What is preferred to the empty word
need not be wider with it. But where something preferred ends with a word that is preferred in the
wider reading, that word stands in the same text, and a search finds it.

## Main definitions

* `Meaning.endOf` — the words that end with a word of a meaning
* `Regex.Widened` — items have no other words than a meaning, and what they prefer ends with what is
  preferred there

## Main results

* `Widened.append`, `Widened.append_widenedBy` — items one after the other are widened if each of
  them is
-/

namespace MotifSearch

namespace Meaning

/-- Meanings are ordered by their words. -/
instance : PartialOrder Meaning :=
  inferInstanceAs (PartialOrder (Bool → List Char → List Char → Prop))

variable {first second wide wider body meaning : Meaning}

theorem never_le : never ≤ meaning :=
  fun _ _ _ h => h.elim

theorem le_either_left : first ≤ first.either second :=
  fun _ _ _ => Or.inl

theorem le_either_right : second ≤ first.either second :=
  fun _ _ _ => Or.inr

theorem either_le (hfirst : first ≤ wide) (hsecond : second ≤ wide) : first.either second ≤ wide :=
  fun _ _ _ h => h.elim (hfirst _ _ _) (hsecond _ _ _)

theorem followedBy_mono (hfirst : first ≤ wide) (hsecond : second ≤ wider) :
    first.followedBy second ≤ wide.followedBy wider := by
  rintro atLineStart _ after ⟨left, right, rfl, hleft, hright⟩
  exact ⟨left, right, rfl, hfirst _ _ _ hleft, hsecond _ _ _ hright⟩

theorem iterated_mono (h : body ≤ wide) : (Iterated body : Meaning) ≤ Iterated wide := by
  intro atLineStart word after hword
  induction hword with
  | once hbody => exact .once (h _ _ _ hbody)
  | more hleft _ ih => exact .more (h _ _ _ hleft) ih

theorem repeated_mono (times : Repeat) (h : body ≤ wide) :
    body.repeated times ≤ wide.repeated times := by
  cases times with
  | oneOrMore => exact iterated_mono h
  | optional => exact either_le le_either_left (h.trans le_either_right)
  | zeroOrMore => exact either_le le_either_left ((iterated_mono h).trans le_either_right)

theorem le_repeated (times : Repeat) : body ≤ body.repeated times := by
  intro atLineStart word after h
  cases times with
  | oneOrMore => exact .once h
  | optional => exact Or.inr h
  | zeroOrMore => exact Or.inr (.once h)

theorem nothing_le_repeated : nothing ≤ body.repeated .zeroOrMore :=
  le_either_left

theorem repeated_le_zeroOrMore (times : Repeat) :
    body.repeated times ≤ body.repeated .zeroOrMore := by
  cases times with
  | oneOrMore => exact le_either_right
  | optional => exact either_le le_either_left (le_repeated .zeroOrMore)
  | zeroOrMore => exact le_rfl

/-- Any number of iterations after any number of them. -/
theorem repeated_followedBy_le : (body.repeated .zeroOrMore).followedBy
    (body.repeated .zeroOrMore) ≤ body.repeated .zeroOrMore := by
  rintro atLineStart _ after ⟨left, right, rfl, rfl | hleft, hright⟩
  · exact hright
  · refine Or.inr ?_
    generalize hrest : right ++ after = rest at hleft
    induction hleft with
    | once hbody =>
      subst hrest
      exact .of_followedBy ⟨_, right, rfl, hbody, hright⟩
    | more hbody _ ih =>
      subst hrest
      rw [List.append_assoc]
      exact .more (by simpa using hbody) (ih (by simpa using hright) rfl)

/-- The words that end with a word of a meaning. -/
def endOf (meaning : Meaning) : Meaning := fun atLineStart word after =>
  ∃ first last, word = first ++ last ∧ meaning (lineStartAfter atLineStart first) last after

theorem le_endOf : meaning ≤ meaning.endOf :=
  fun _ word _ h => ⟨[], word, rfl, h⟩

theorem endOf_mono (h : first ≤ second) : first.endOf ≤ second.endOf := by
  rintro atLineStart _ after ⟨front, last, rfl, hlast⟩
  exact ⟨front, last, rfl, h _ _ _ hlast⟩

theorem endOf_followedBy_le : first.endOf.followedBy second ≤ (first.followedBy second).endOf := by
  rintro atLineStart _ after ⟨_, right, rfl, ⟨front, last, rfl, hlast⟩, hright⟩
  rw [lineStartAfter_append] at hright
  exact ⟨front, last ++ right, by simp, last, right, rfl, hlast, hright⟩

theorem followedBy_endOf_le : first.followedBy second.endOf ≤ second.endOf := by
  rintro atLineStart _ after ⟨left, _, rfl, -, front, last, rfl, hlast⟩
  exact ⟨left ++ front, last, by simp, by simpa using hlast⟩

end Meaning

namespace Regex

open Meaning

/-- Where wider items cannot all be empty, the items cannot either. -/
theorem itemsNullable_eq_false_of_le {items others : List Regex}
    (h : itemsMeaning items ≤ itemsMeaning others) (hnullable : itemsNullable others = false) :
    itemsNullable items = false := by
  rw [← Bool.not_eq_true, itemsNullable_iff] at hnullable ⊢
  exact fun hnil => hnullable (h _ _ _ hnil)

/-- Items that have no other words than a meaning, and of which all that is preferred to the empty
word ends with what is preferred there. -/
structure Widened (meaning preferring : Meaning) (items : List Regex) : Prop where
  meaning_le : itemsMeaning items ≤ meaning
  preferring_le : itemsPreferring items ≤ preferring.endOf

/-- Items that are widened by other items. -/
abbrev WidenedBy (others items : List Regex) : Prop :=
  Widened (itemsMeaning others) (itemsPreferring others) items

namespace Widened

variable {meaning preferring first second firstPreferring secondPreferring : Meaning}
variable {items others : List Regex}

theorem mono (h : Widened first firstPreferring items) (hmeaning : first ≤ meaning)
    (hpreferring : firstPreferring ≤ preferring) : Widened meaning preferring items :=
  ⟨h.meaning_le.trans hmeaning, h.preferring_le.trans (endOf_mono hpreferring)⟩

/-- Among items that are never all empty, all words are preferred. -/
theorem of_not_nullable (h : itemsMeaning items ≤ itemsMeaning others)
    (hnullable : itemsNullable others = false) :
    WidenedBy others items := by
  have hitems := itemsNullable_eq_false_of_le h hnullable
  refine ⟨h, ?_⟩
  rw [itemsPreferring_of_not_nullable hitems, itemsPreferring_of_not_nullable hnullable]
  exact h.trans le_endOf

theorem singleton_iff {item : Regex} : Widened meaning preferring [item] ↔
    item.meaning ≤ meaning ∧ item.preferring ≤ preferring.endOf := by
  rw [← itemsMeaning_singleton item, ← itemsPreferring_singleton item]
  exact ⟨fun h => ⟨h.meaning_le, h.preferring_le⟩, fun h => ⟨h.1, h.2⟩⟩

theorem nil (h : nothing ≤ meaning) : Widened meaning preferring [] :=
  ⟨h, never_le⟩

/-- Items one after the other are widened if each of them is, and what widens them can be put one
after the other. -/
theorem append (hitems : Widened first firstPreferring items)
    (hothers : Widened second secondPreferring others)
    (hmeaning : first.followedBy second ≤ meaning)
    (hpreferring : firstPreferring.followedBy second ≤ preferring)
    (hsecond : secondPreferring ≤ preferring) : Widened meaning preferring (items ++ others) := by
  -- Something preferred in the items, and then any word of the others.
  have hfront : (itemsPreferring items).followedBy (itemsMeaning others) ≤ preferring.endOf :=
    calc (itemsPreferring items).followedBy (itemsMeaning others)
        ≤ firstPreferring.endOf.followedBy second :=
          followedBy_mono hitems.preferring_le hothers.meaning_le
      _ ≤ (firstPreferring.followedBy second).endOf := endOf_followedBy_le
      _ ≤ preferring.endOf := endOf_mono hpreferring
  have hback : itemsPreferring others ≤ preferring.endOf :=
    hothers.preferring_le.trans (endOf_mono hsecond)
  refine ⟨?_, ?_⟩
  · rw [itemsMeaning_append]
    exact (followedBy_mono hitems.meaning_le hothers.meaning_le).trans hmeaning
  · cases hnullable : itemsNullable items with
    | false =>
      rw [itemsPreferring_of_not_nullable (by simp [hnullable]), itemsMeaning_append,
        ← itemsPreferring_of_not_nullable hnullable]
      exact hfront
    | true =>
      cases hnullableOthers : itemsNullable others with
      | false =>
        rw [itemsPreferring_of_not_nullable (by simp [hnullableOthers]), itemsMeaning_append,
          ← itemsPreferring_of_not_nullable hnullableOthers]
        exact (followedBy_mono le_rfl hback).trans followedBy_endOf_le
      | true =>
        rw [itemsPreferring_append hnullable hnullableOthers]
        exact either_le hfront hback

/-- Items that are widened by others, after items that are. -/
theorem append_widenedBy {wide wider : List Regex} (hitems : WidenedBy wide items)
    (hothers : WidenedBy wider others) : WidenedBy (wide ++ wider) (items ++ others) := by
  have hmeaning : (itemsMeaning wide).followedBy (itemsMeaning wider) =
      itemsMeaning (wide ++ wider) := (itemsMeaning_append wide wider).symm
  cases hnullable : itemsNullable (wide ++ wider) with
  | false =>
    refine of_not_nullable ?_ hnullable
    rw [itemsMeaning_append, ← hmeaning]
    exact followedBy_mono hitems.meaning_le hothers.meaning_le
  | true =>
    rw [itemsNullable_append, Bool.and_eq_true] at hnullable
    have hpreferring := itemsPreferring_append hnullable.1 hnullable.2
    exact hitems.append hothers (le_of_eq hmeaning) (hpreferring ▸ le_either_left)
      (hpreferring ▸ le_either_right)

end Widened

end Regex

end MotifSearch
