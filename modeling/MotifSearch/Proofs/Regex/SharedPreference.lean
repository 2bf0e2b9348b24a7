import MotifSearch.Proofs.Regex.Factoring
import MotifSearch.Proofs.Regex.Preference
import MotifSearch.Proofs.Regex.Sharing

/-!
# The form that is matched prefers the same to the empty match

Moving what all branches of a choice begin with to the front of the choice can change which match is
preferred, but not which matches are preferred to the empty one: a branch that can be empty consists
of brackets that capture, and so it shares nothing with the others.

## Main definitions

* `Regex.itemsNullable`, `Regex.branchesNullable` — items, some branch of a choice can be empty
* `Regex.itemsPreferring`, `Regex.branchesPreferring` — the words that items, that the branches of a
  choice prefer to the empty one
* `Regex.SettledBranches` — branches that can be empty consist of settled brackets

## Main results

* `branchesNullable_eq` — branches can be empty if an expression of the same meaning can
* `preferring_factored`, `Settled.factored` — the form that is matched prefers the same, and it is
  settled, too
-/

namespace MotifSearch.Regex

open Meaning

/-- Whether all items of a branch can be empty. -/
def itemsNullable (items : List Regex) : Bool :=
  items.all nullable

/-- Whether some branch of a choice can be empty. -/
def branchesNullable (branches : List (List Regex)) : Bool :=
  branches.any itemsNullable

/-- The words that items prefer to the empty one, one after the other. -/
def itemsPreferring : List Regex → Meaning
  | [] => never
  | item :: items =>
    if itemsNullable (item :: items) then
      (item.preferring.followedBy (itemsMeaning items)).either (itemsPreferring items)
    else itemsMeaning (item :: items)

/-- The words that the branches of a choice prefer to the empty one. -/
def branchesPreferring : List (List Regex) → Meaning
  | [] => never
  | branch :: branches =>
    if itemsNullable branch then itemsPreferring branch
    else (itemsMeaning branch).either (branchesPreferring branches)

section Nullable

variable {regex : Regex} {items : List Regex} {branches : List (List Regex)}

@[simp] theorem itemsNullable_nil : itemsNullable [] = true := rfl

@[simp] theorem itemsNullable_cons (item : Regex) (items : List Regex) :
    itemsNullable (item :: items) = (item.nullable && itemsNullable items) := List.all_cons

theorem itemsNullable_singleton (item : Regex) : itemsNullable [item] = item.nullable :=
  Bool.and_true _

@[simp] theorem itemsNullable_append (first second : List Regex) :
    itemsNullable (first ++ second) = (itemsNullable first && itemsNullable second) :=
  List.all_append

@[simp] theorem branchesNullable_nil : branchesNullable [] = false := rfl

@[simp] theorem branchesNullable_cons (branch : List Regex) (branches : List (List Regex)) :
    branchesNullable (branch :: branches) = (itemsNullable branch || branchesNullable branches) :=
  List.any_cons

theorem branchesNullable_singleton (branch : List Regex) :
    branchesNullable [branch] = itemsNullable branch :=
  Bool.or_false _

theorem itemsNullable_iff : itemsNullable items = true ↔ itemsMeaning items true [] [] := by
  induction items with
  | nil => simp [nothing]
  | cons item items ih =>
    rw [itemsNullable_cons, Bool.and_eq_true, itemsMeaning_cons, followedBy_nil, ih, nullable_iff]

theorem branchesNullable_iff :
    branchesNullable branches = true ↔ branchesMeaning branches true [] [] := by
  induction branches with
  | nil => simp [never]
  | cons branch branches ih =>
    rw [branchesNullable_cons, Bool.or_eq_true, itemsNullable_iff, ih]
    rfl

/-- Items that mean what an expression means can be empty if the expression can. -/
theorem itemsNullable_eq (h : itemsMeaning items = regex.meaning) :
    itemsNullable items = regex.nullable := by
  rw [Bool.eq_iff_iff, itemsNullable_iff, nullable_iff, h]

/-- Branches that mean what an expression means can be empty if the expression can. -/
theorem branchesNullable_eq (h : branchesMeaning branches = regex.meaning) :
    branchesNullable branches = regex.nullable := by
  rw [Bool.eq_iff_iff, branchesNullable_iff, nullable_iff, h]

theorem nullable_concat (items : List Regex) : (concat items).nullable = itemsNullable items :=
  (itemsNullable_eq (meaning_concat items).symm).symm

theorem branchesNullable_factoredBranches (regex : Regex) :
    branchesNullable regex.factoredBranches = regex.nullable :=
  branchesNullable_eq (branchesMeaning_factoredBranches regex)

end Nullable

section Preferring

variable {items first second : List Regex} {branches others : List (List Regex)}

theorem itemsPreferring_of_not_nullable (h : itemsNullable items = false) :
    itemsPreferring items = itemsMeaning items := by
  cases items with
  | nil => cases h
  | cons item items => rw [itemsPreferring, h]; rfl

theorem branchesPreferring_of_not_nullable (h : branchesNullable branches = false) :
    branchesPreferring branches = branchesMeaning branches := by
  induction branches with
  | nil => rfl
  | cons branch branches ih =>
    rw [branchesNullable_cons, Bool.or_eq_false_iff] at h
    rw [branchesPreferring, h.1, ih h.2]
    rfl

@[simp] theorem itemsPreferring_singleton (item : Regex) :
    itemsPreferring [item] = item.preferring := by
  cases h : item.nullable with
  | false =>
    rw [itemsPreferring_of_not_nullable ((itemsNullable_singleton item).trans h),
      preferring_of_not_nullable h, itemsMeaning_singleton]
  | true => simp [itemsPreferring, h]

@[simp] theorem branchesPreferring_singleton (branch : List Regex) :
    branchesPreferring [branch] = itemsPreferring branch := by
  cases h : itemsNullable branch with
  | false =>
    rw [branchesPreferring_of_not_nullable ((branchesNullable_singleton branch).trans h),
      itemsPreferring_of_not_nullable h, branchesMeaning_singleton]
  | true => simp [branchesPreferring, h]

/-- Items that can be empty prefer words that the first ones of them prefer, and then words that the
others do. -/
theorem itemsPreferring_append (hfirst : itemsNullable first = true)
    (hsecond : itemsNullable second = true) :
    itemsPreferring (first ++ second) =
      ((itemsPreferring first).followedBy (itemsMeaning second)).either
        (itemsPreferring second) := by
  induction first with
  | nil => simp [itemsPreferring]
  | cons item first ih =>
    have hall : itemsNullable (item :: (first ++ second)) = true := by
      rw [← List.cons_append, itemsNullable_append, hfirst, hsecond, Bool.and_self]
    rw [List.cons_append, itemsPreferring, if_pos hall, itemsPreferring, if_pos hfirst,
      ih (Bool.and_eq_true_iff.mp hfirst).2, itemsMeaning_append, either_followedBy,
      followedBy_assoc, either_assoc]

theorem branchesPreferring_append (branches others : List (List Regex)) :
    branchesPreferring (branches ++ others) =
      if branchesNullable branches then branchesPreferring branches
      else (branchesMeaning branches).either (branchesPreferring others) := by
  induction branches with
  | nil => simp
  | cons branch branches ih =>
    rw [List.cons_append, branchesPreferring, branchesPreferring, ih, branchesNullable_cons]
    cases itemsNullable branch with
    | true => rfl
    | false => cases branchesNullable branches <;> simp [either_assoc]

theorem preferring_concat (items : List Regex) :
    (concat items).preferring = itemsPreferring items := by
  induction items with
  | nil => rfl
  | cons item items ih =>
    cases items with
    | nil => exact (itemsPreferring_singleton item).symm
    | cons next items =>
      rw [concat_cons_cons, preferring, nullable_concat, ← itemsNullable_cons item,
        meaning_concat, ih]
      rfl

theorem preferring_ofBranches (branches : List (List Regex)) :
    (ofBranches branches).preferring = branchesPreferring branches := by
  induction branches with
  | nil => rfl
  | cons branch branches ih =>
    cases branches with
    | nil => exact (preferring_concat branch).trans (branchesPreferring_singleton branch).symm
    | cons next branches =>
      rw [ofBranches] at ih
      rw [ofBranches, List.map_cons, List.map_cons, alternatives_cons_cons, preferring,
        nullable_concat, preferring_concat, ← List.map_cons, ih, meaning_concat,
        branchesPreferring]
      rfl

theorem itemsPreferring_closed (branches : List (List Regex)) :
    itemsPreferring (closed branches) = branchesPreferring branches := by
  unfold closed
  split
  · exact (branchesPreferring_singleton _).symm
  · rw [itemsPreferring_singleton, preferring_ofBranches]

end Preferring

/-- Whether an expression is a bracketed one that captures, or a loop of it. -/
def isBracketed : Regex → Bool
  | group true _ | loop _ _ (group true _) => true
  | _ => false

/-- Branches that can be empty consist of settled brackets. -/
def SettledBranches (branches : List (List Regex)) : Prop :=
  ∀ items ∈ branches, itemsNullable items = true →
    ∀ item ∈ items, item.isBracketed = true ∧ Settled item

section Settled

variable {items : List Regex} {item regex : Regex} {branches others : List (List Regex)}

theorem SettledBranches.append (h : SettledBranches branches) (hothers : SettledBranches others) :
    SettledBranches (branches ++ others) := by
  intro items hitems
  rcases List.mem_append.mp hitems with hitems | hitems
  · exact h items hitems
  · exact hothers items hitems

theorem SettledBranches.singleton
    (h : itemsNullable items = true → ∀ item ∈ items, item.isBracketed = true ∧ Settled item) :
    SettledBranches [items] := by
  intro other hother
  obtain rfl := List.mem_singleton.mp hother
  exact h

theorem SettledBranches.of_not_nullable (h : branchesNullable branches = false) :
    SettledBranches branches := by
  intro items hitems hnullable
  exact absurd hnullable (List.any_eq_false.mp h items hitems)

theorem captures_of_isBracketed (h : item.isBracketed = true) : item.captures = true := by
  unfold isBracketed at h
  split at h
  · rfl
  · rfl
  · cases h

theorem isAlt_of_isBracketed (h : item.isBracketed = true) : item.isAlt = false := by
  cases item <;> first | rfl | cases h

theorem opened_of_isBracketed (h : ∀ item ∈ items, item.isBracketed = true) :
    opened items = [items] := by
  match items with
  | [] => rfl
  | [item] =>
    have hitem := h item List.mem_cons_self
    cases item <;> first | rfl | cases hitem
  | _ :: _ :: _ => rfl

theorem isAlt_concat (h : ∀ item ∈ items, item.isBracketed = true) :
    (concat items).isAlt = false := by
  match items with
  | [] => rfl
  | [item] => exact isAlt_of_isBracketed (h item List.mem_cons_self)
  | _ :: _ :: _ => rfl

theorem settled_concat (h : ∀ item ∈ items, item.isBracketed = true ∧ Settled item) :
    Settled (concat items) := by
  induction items with
  | nil => exact .empty
  | cons item items ih =>
    obtain ⟨⟨hbracketed, hitem⟩, hitems⟩ := List.forall_mem_cons.mp h
    cases items with
    | nil => exact hitem
    | cons next items =>
      exact .cat hitem (ih hitems) (isAlt_of_isBracketed hbracketed)
        (isAlt_concat fun other hother => (hitems other hother).1)

theorem SettledBranches.ofBranches (h : SettledBranches branches) :
    Settled (ofBranches branches) := by
  induction branches with
  | nil => exact .empty
  | cons items branches ih =>
    have hitems : Settled (concat items) := by
      cases hnullable : itemsNullable items with
      | false => exact .solid ((nullable_concat items).trans hnullable)
      | true => exact settled_concat (h items List.mem_cons_self hnullable)
    cases branches with
    | nil => exact hitems
    | cons next branches =>
      exact .alt hitems (ih fun other hother => h other (List.mem_cons_of_mem items hother))

/-- Settled branches of which one can be empty share nothing. -/
theorem SettledBranches.share_eq (h : SettledBranches branches)
    (hnullable : branchesNullable branches = true) : share branches = branches := by
  obtain ⟨items, hitems, hempty⟩ := List.any_eq_true.mp hnullable
  unfold share
  split
  · rfl
  · next item others hshared =>
    -- What is shared is the beginning of that branch, a bracket that captures.
    obtain ⟨rest, hrest⟩ := sharedItems_prefix hitems
    have hitem : item ∈ items := by simp [← hrest, hshared]
    have hcaptures := captures_of_mem_sharedItems (hshared ▸ List.mem_cons_self)
    rw [captures_of_isBracketed (h items hitems hempty item hitem).1] at hcaptures
    cases hcaptures

/-- Branches that stand for a settled expression: they prefer what it prefers, and there is only one
of them if it can be empty and is no choice. -/
private structure StandsFor (branches : List (List Regex)) (regex : Regex) : Prop where
  settled : SettledBranches branches
  meaning_eq : branchesMeaning branches = regex.meaning
  preferring_eq : branchesPreferring branches = regex.preferring
  eq_singleton : regex.nullable = true → regex.isAlt = false → ∃ items, branches = [items]

private theorem standsFor_of_not_nullable (h : regex.nullable = false)
    (hmeaning : branchesMeaning branches = regex.meaning) : StandsFor branches regex := by
  have hbranches := (branchesNullable_eq hmeaning).trans h
  refine ⟨.of_not_nullable hbranches, hmeaning, ?_, fun hregex => ?_⟩
  · rw [branchesPreferring_of_not_nullable hbranches, hmeaning, preferring_of_not_nullable h]
  · rw [h] at hregex
    cases hregex

private theorem StandsFor.share (h : StandsFor branches regex) (hne : branches ≠ []) :
    StandsFor (share branches) regex := by
  cases hregex : regex.nullable with
  -- One of the branches can be empty, and so they share nothing.
  | true => rwa [h.settled.share_eq ((branchesNullable_eq h.meaning_eq).trans hregex)]
  | false => exact standsFor_of_not_nullable hregex ((branchesMeaning_share hne).trans h.meaning_eq)

/-- What can be empty and is no choice is a single branch of settled brackets. -/
private theorem StandsFor.settled_closed (h : StandsFor branches regex)
    (hnullable : regex.nullable = true) (halt : regex.isAlt = false) :
    ∀ item ∈ closed branches, item.isBracketed = true ∧ Settled item := by
  obtain ⟨items, rfl⟩ := h.eq_singleton hnullable halt
  have hitems := (branchesNullable_eq h.meaning_eq).trans hnullable
  exact h.settled items List.mem_cons_self ((branchesNullable_singleton items).symm.trans hitems)

/-- The items of two expressions, both of which can be empty, one after the other. -/
private theorem StandsFor.preferring_closed_append {first second : Regex}
    {branches others : List (List Regex)} (hfirst : StandsFor branches first)
    (hsecond : StandsFor others second) (hne : branches ≠ []) (hneOthers : others ≠ [])
    (hnullable : first.nullable = true) (hnullableSecond : second.nullable = true) :
    itemsPreferring (closed branches ++ closed others) = (cat first second).preferring := by
  have hmeaning := (itemsMeaning_closed hne).trans hfirst.meaning_eq
  have hmeaningSecond := (itemsMeaning_closed hneOthers).trans hsecond.meaning_eq
  rw [itemsPreferring_append ((itemsNullable_eq hmeaning).trans hnullable)
      ((itemsNullable_eq hmeaningSecond).trans hnullableSecond),
    itemsPreferring_closed, itemsPreferring_closed, hfirst.preferring_eq, hsecond.preferring_eq,
    hmeaningSecond, preferring, hnullable, hnullableSecond, Bool.and_self, if_pos rfl]

/-- What reads nothing prefers nothing to the empty match. -/
private theorem preferring_of_readsNothing (h : regex.readsNothing = true) :
    regex.preferring = never ∧ regex.nullable = true := by
  induction regex with
  | empty | lineStart | notAhead => exact ⟨rfl, rfl⟩
  | chars set => cases h
  | group captures body ih => exact ih h
  | loop times greedy body ih =>
    obtain ⟨hbody, hnullable⟩ := ih h
    cases times <;> cases greedy <;> simp [preferring, nullable, hbody, hnullable]
  | cat first rest ihfirst ihrest | alt first rest ihfirst ihrest =>
    rw [readsNothing, Bool.and_eq_true] at h
    obtain ⟨hfirst, hnullable⟩ := ihfirst h.1
    obtain ⟨hrest, hnullableRest⟩ := ihrest h.2
    simp [preferring, nullable, hfirst, hnullable, hrest, hnullableRest]

/-- A loop prefers what its body does, and so does the form in which it is matched. -/
private theorem preferring_loopBranches {times : Repeat} {greedy : Bool} {body inner : Regex}
    (hpreferring : inner.preferring = body.preferring) (hmeaning : inner.meaning = body.meaning) :
    branchesPreferring (loopBranches times greedy body.readsNothing [[group true inner]]) =
      (loop times greedy (group true body)).preferring := by
  have hloop : ∀ times, (loop times greedy (group true inner)).preferring =
      (loop times greedy (group true body)).preferring := by
    intro times
    cases times <;> simp only [preferring, meaning, hpreferring, hmeaning]
  unfold loopBranches
  cases hreads : body.readsNothing with
  | false => simpa [ofBranches] using hloop times
  | true =>
    -- There is one iteration at most, which has nothing to prefer to the empty match.
    have hnever := (preferring_of_readsNothing hreads).1
    cases times with
    | optional => simpa [ofBranches] using hloop .optional
    | oneOrMore => simp [preferring, hpreferring, hnever]
    | zeroOrMore => cases greedy <;> simp [ofBranches, preferring, hpreferring, hnever]

private theorem exists_loopBranches_eq (times : Repeat) (greedy reads : Bool) {inner : Regex}
    (h : Settled inner) : ∃ item, loopBranches times greedy reads [[group true inner]] = [[item]] ∧
      item.isBracketed = true ∧ Settled item := by
  have hloop : ∀ times, Settled (loop times greedy (group true inner)) := fun _ => .loop h
  unfold loopBranches
  cases reads with
  | false => exact ⟨_, rfl, rfl, hloop times⟩
  | true =>
    cases times with
    | oneOrMore => exact ⟨_, rfl, rfl, .group h⟩
    | optional | zeroOrMore => exact ⟨_, rfl, rfl, hloop .optional⟩

/-- The branches of the form that is matched, before what they share is moved, stand for the
expression. -/
private theorem Settled.standsFor (h : Settled regex) :
    StandsFor regex.factoredBranches regex := by
  have hne := factoredBranches_ne_nil
  induction h with
  | @solid regex h =>
    exact standsFor_of_not_nullable h (branchesMeaning_factoredBranches regex)
  | empty =>
    exact ⟨.singleton fun _ => by simp, branchesMeaning_factoredBranches _, rfl,
      fun _ _ => ⟨[], rfl⟩⟩
  | @group body hbody ih =>
    have hshared := ih.share (hne body)
    refine ⟨.singleton fun _ => ?_, branchesMeaning_factoredBranches _, ?_, fun _ _ => ⟨_, rfl⟩⟩
    · simpa [isBracketed] using Settled.group hshared.settled.ofBranches
    · rw [factoredBranches, branchesPreferring_singleton, itemsPreferring_singleton, preferring,
        preferring_ofBranches, hshared.preferring_eq, preferring]
  | @loop times greedy body hbody ih =>
    have hshared := ih.share (hne body)
    have hpreferring : (ofBranches (share body.factoredBranches)).preferring = body.preferring := by
      rw [preferring_ofBranches, hshared.preferring_eq]
    obtain ⟨item, hitem, hbracketed, hsettled⟩ := exists_loopBranches_eq times greedy
      body.readsNothing hshared.settled.ofBranches
    refine ⟨?_, branchesMeaning_factoredBranches _,
      preferring_loopBranches hpreferring (meaning_factored body), fun _ _ => ⟨_, hitem⟩⟩
    rw [factoredBranches]
    refine hitem ▸ .singleton fun _ => ?_
    simpa using ⟨hbracketed, hsettled⟩
  | @cat first rest hfirst hrest haltFirst haltRest ihfirst ihrest =>
    have hmeaning := branchesMeaning_factoredBranches (Regex.cat first rest)
    have hsharedFirst := ihfirst.share (hne first)
    have hsharedRest := ihrest.share (hne rest)
    cases hnullable : (Regex.cat first rest).nullable with
    | false => exact standsFor_of_not_nullable hnullable hmeaning
    | true =>
      obtain ⟨hnullableFirst, hnullableRest⟩ := Bool.and_eq_true_iff.mp hnullable
      have hitems := List.forall_mem_append.mpr
        ⟨hsharedFirst.settled_closed hnullableFirst haltFirst,
          hsharedRest.settled_closed hnullableRest haltRest⟩
      -- Two sequences of brackets make up one sequence of brackets.
      have hbranches : (Regex.cat first rest).factoredBranches =
          [closed (Regex.share first.factoredBranches) ++
            closed (Regex.share rest.factoredBranches)] :=
        opened_of_isBracketed fun item hitem => (hitems item hitem).1
      rw [hbranches] at hmeaning ⊢
      refine ⟨.singleton fun _ => hitems, hmeaning, ?_, fun _ _ => ⟨_, rfl⟩⟩
      rw [branchesPreferring_singleton]
      exact hsharedFirst.preferring_closed_append hsharedRest (share_factoredBranches_ne_nil first)
        (share_factoredBranches_ne_nil rest) hnullableFirst hnullableRest
  | @alt first rest hfirst hrest ihfirst ihrest =>
    refine ⟨ihfirst.settled.append ihrest.settled, branchesMeaning_factoredBranches _, ?_,
      fun _ halt => absurd halt Bool.false_ne_true.symm⟩
    rw [factoredBranches, branchesPreferring_append, branchesNullable_factoredBranches,
      branchesMeaning_factoredBranches, ihfirst.preferring_eq, ihrest.preferring_eq, preferring]

private theorem Settled.standsFor_shared (h : Settled regex) :
    StandsFor (share regex.factoredBranches) regex :=
  h.standsFor.share (factoredBranches_ne_nil regex)

/-- The form that is matched prefers the same to the empty match. -/
theorem preferring_factored (h : Settled regex) : regex.factored.preferring = regex.preferring := by
  rw [factored, preferring_ofBranches, h.standsFor_shared.preferring_eq]

theorem Settled.factored (h : Settled regex) : Settled regex.factored :=
  h.standsFor_shared.settled.ofBranches

end Settled

end MotifSearch.Regex
