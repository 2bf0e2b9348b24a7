import MotifSearch.Proofs.Regex.Meaning
import MotifSearch.Regex.Shared

/-!
# The form that is matched means the same

Moving what all branches of a choice begin with to the front of the choice multiplies the choice out
backwards, and so changes no meaning. Only the preference among the matches can change.

## Main definitions

* `Regex.itemsMeaning`, `Regex.branchesMeaning` — what items, what branches match

## Main results

* `branchesMeaning_share` — sharing keeps the meaning
* `meaning_factored` — an expression and its form for matching mean the same
-/

namespace MotifSearch.Regex

open Meaning

/-- What items match, one after the other. -/
def itemsMeaning (items : List Regex) : Meaning :=
  sequence (items.map meaning)

/-- What the branches of a choice match. -/
def branchesMeaning (branches : List (List Regex)) : Meaning :=
  choice (branches.map itemsMeaning)

@[simp] theorem itemsMeaning_nil : itemsMeaning [] = nothing := rfl

@[simp] theorem itemsMeaning_cons (item : Regex) (items : List Regex) :
    itemsMeaning (item :: items) = item.meaning.followedBy (itemsMeaning items) := rfl

@[simp] theorem itemsMeaning_append (first second : List Regex) :
    itemsMeaning (first ++ second) = (itemsMeaning first).followedBy (itemsMeaning second) := by
  simp [itemsMeaning, sequence_append]

@[simp] theorem branchesMeaning_nil : branchesMeaning [] = never := rfl

@[simp] theorem branchesMeaning_cons (branch : List Regex) (branches : List (List Regex)) :
    branchesMeaning (branch :: branches) =
      (itemsMeaning branch).either (branchesMeaning branches) := rfl

@[simp] theorem branchesMeaning_append (first second : List (List Regex)) :
    branchesMeaning (first ++ second) =
      (branchesMeaning first).either (branchesMeaning second) := by
  simp [branchesMeaning, choice_append]

@[simp] theorem itemsMeaning_singleton (item : Regex) : itemsMeaning [item] = item.meaning :=
  followedBy_nothing _

@[simp] theorem branchesMeaning_singleton (branch : List Regex) :
    branchesMeaning [branch] = itemsMeaning branch :=
  either_never _

theorem meaning_ofBranches {branches : List (List Regex)} (h : branches ≠ []) :
    (ofBranches branches).meaning = branchesMeaning branches := by
  rw [ofBranches, meaning_alternatives (by simpa using h), List.map_map, branchesMeaning]
  congr 1
  apply List.map_congr_left
  intro branch _
  exact meaning_concat branch

theorem itemsMeaning_items (regex : Regex) : itemsMeaning regex.items = regex.meaning := by
  induction regex with
  | empty => rfl
  | cat first rest _ ih => rw [items, itemsMeaning_cons, ih, meaning]
  | chars | lineStart | notAhead | group | loop | alt => exact itemsMeaning_singleton _

theorem branchesMeaning_branches (regex : Regex) :
    branchesMeaning regex.branches = regex.meaning := by
  induction regex with
  | alt first rest _ ih => rw [branches, branchesMeaning_cons, itemsMeaning_items, ih, meaning]
  | empty | chars | lineStart | notAhead | group | loop | cat =>
    exact (branchesMeaning_singleton _).trans (itemsMeaning_items _)

theorem branches_ne_nil (regex : Regex) : regex.branches ≠ [] := by
  cases regex <;> simp [branches]

theorem branchesMeaning_opened (items : List Regex) :
    branchesMeaning (opened items) = itemsMeaning items := by
  unfold opened
  split
  · rw [branchesMeaning_branches, itemsMeaning_singleton]
  · exact branchesMeaning_singleton items

theorem opened_ne_nil (items : List Regex) : opened items ≠ [] := by
  unfold opened
  split
  · exact branches_ne_nil _
  · simp

theorem itemsMeaning_closed {branches : List (List Regex)} (h : branches ≠ []) :
    itemsMeaning (closed branches) = branchesMeaning branches := by
  unfold closed
  split
  · exact (branchesMeaning_singleton _).symm
  · rw [itemsMeaning_singleton, meaning_ofBranches h]

/-- Branches that begin alike: what they share, and then a choice between the others. -/
private theorem branchesMeaning_of_shared {shared : List Regex} {branches : List (List Regex)}
    (h : ∀ branch ∈ branches, shared <+: branch) :
    branchesMeaning branches = (itemsMeaning shared).followedBy
      (branchesMeaning (branches.flatMap fun branch => opened (branch.drop shared.length))) := by
  induction branches with
  | nil => simp
  | cons branch branches ih =>
    obtain ⟨rest, rfl⟩ := h branch List.mem_cons_self
    have hothers := ih fun other hother => h other (List.mem_cons_of_mem _ hother)
    rw [List.flatMap_cons, branchesMeaning_append, followedBy_either, ← hothers,
      List.drop_left, branchesMeaning_opened, branchesMeaning_cons, itemsMeaning_append]

/-- Sharing keeps the meaning of branches. -/
theorem branchesMeaning_share {branches : List (List Regex)} (h : branches ≠ []) :
    branchesMeaning (share branches) = branchesMeaning branches := by
  unfold share
  split
  · rfl
  · next item others hshared =>
    obtain ⟨branch, hbranch⟩ := List.exists_mem_of_ne_nil _ h
    have hprefix : ∀ branch ∈ branches, item :: others <+: branch := fun branch hbranch =>
      hshared ▸ sharedItems_prefix hbranch
    -- What is left of a branch may be nothing, but it is a branch all the same.
    have hrest : (branches.flatMap fun branch =>
        opened (branch.drop (item :: others).length)) ≠ [] := by
      intro hnil
      exact opened_ne_nil _ (List.flatMap_eq_nil_iff.mp hnil branch hbranch)
    rw [branchesMeaning_of_shared hprefix, branchesMeaning_singleton, itemsMeaning_append,
      itemsMeaning_singleton, meaning_ofBranches hrest]

theorem share_ne_nil {branches : List (List Regex)} (h : branches ≠ []) : share branches ≠ [] := by
  unfold share
  split
  · exact h
  · simp

/-- A body that reads nothing matches the empty word only. -/
theorem eq_nil_of_readsNothing {regex : Regex} (h : regex.readsNothing = true)
    {atLineStart : Bool} {word after : List Char} (hword : regex.meaning atLineStart word after) :
    word = [] := by
  induction regex generalizing atLineStart word after with
  | empty => exact hword
  | chars set => cases h
  | lineStart => exact hword.2
  | notAhead set => exact hword.2
  | group captures body ih => exact ih h hword
  | cat first rest ihfirst ihrest =>
    obtain ⟨left, right, rfl, hleft, hright⟩ := hword
    rw [readsNothing, Bool.and_eq_true] at h
    rw [ihfirst h.1 hleft, ihrest h.2 hright, List.append_nil]
  | alt first rest ihfirst ihrest =>
    rw [readsNothing, Bool.and_eq_true] at h
    exact hword.elim (ihfirst h.1) (ihrest h.2)
  | loop times greedy body ih =>
    -- The iterations need an induction of their own, each of them being a word of the body.
    have hiterated : ∀ atLineStart word after,
        Iterated body.meaning atLineStart word after → word = [] := by
      intro atLineStart word after hword
      induction hword with
      | once hword => exact ih h hword
      | more hleft _ ihmore => rw [ih h hleft, ihmore, List.append_nil]
    cases times with
    | optional => exact hword.elim id (ih h)
    | oneOrMore => exact hiterated _ _ _ hword
    | zeroOrMore => exact hword.elim id (hiterated _ _ _)

/-- Further iterations of a body that reads nothing add nothing to the first one. -/
private theorem iterated_of_readsNothing {body : Regex} (h : body.readsNothing = true) :
    Iterated body.meaning = body.meaning := by
  ext atLineStart word after
  constructor
  · intro hword
    have hloop : (loop .oneOrMore true body).readsNothing = true := h
    obtain rfl := eq_nil_of_readsNothing hloop hword
    exact hword.nil_inv
  · exact Iterated.once

theorem branchesMeaning_loopBranches {times : Repeat} {greedy : Bool} {body : Regex}
    {branches : List (List Regex)} (hne : branches ≠ [])
    (h : branchesMeaning branches = body.meaning) :
    branchesMeaning (loopBranches times greedy body.readsNothing branches) =
      body.meaning.repeated times := by
  have hsingle : ∀ times, branchesMeaning [[loop times greedy (ofBranches branches)]] =
      body.meaning.repeated times := by
    intro times
    rw [branchesMeaning_singleton, itemsMeaning_singleton, meaning, meaning_ofBranches hne, h]
  unfold loopBranches
  cases hreads : body.readsNothing with
  | false => exact hsingle times
  | true =>
    -- One iteration at most is left, and by then there is nothing more to repeat.
    have hiterated := iterated_of_readsNothing hreads
    cases times with
    | optional => exact hsingle .optional
    | oneOrMore => rw [h, repeated, hiterated]
    | zeroOrMore => rw [hsingle .optional, repeated, repeated, hiterated]

theorem factoredBranches_ne_nil (regex : Regex) : regex.factoredBranches ≠ [] := by
  induction regex with
  | empty | chars | lineStart | notAhead => simp [factoredBranches]
  | group captures body ih =>
    cases captures with
    | true => simp [factoredBranches]
    | false => exact share_ne_nil ih
  | loop times greedy body ih =>
    unfold factoredBranches loopBranches
    split
    · exact share_ne_nil ih
    · simp
    · simp
  | cat first rest _ _ => exact opened_ne_nil _
  | alt first rest ih _ => simp [factoredBranches, ih]

theorem branchesMeaning_factoredBranches (regex : Regex) :
    branchesMeaning regex.factoredBranches = regex.meaning := by
  have hshare : ∀ regex : Regex, branchesMeaning regex.factoredBranches = regex.meaning →
      branchesMeaning (share regex.factoredBranches) = regex.meaning := by
    intro regex h
    rw [branchesMeaning_share (factoredBranches_ne_nil regex), h]
  have hne : ∀ regex : Regex, share regex.factoredBranches ≠ [] := fun regex =>
    share_ne_nil (factoredBranches_ne_nil regex)
  induction regex with
  | empty => simp [factoredBranches, meaning]
  | chars set => simp [factoredBranches]
  | lineStart => simp [factoredBranches]
  | notAhead set => simp [factoredBranches]
  | group captures body ih =>
    cases captures with
    | false => exact hshare body ih
    | true =>
      rw [factoredBranches, branchesMeaning_singleton, itemsMeaning_singleton, meaning,
        meaning_ofBranches (hne body), hshare body ih, meaning]
  | loop times greedy body ih => exact branchesMeaning_loopBranches (hne body) (hshare body ih)
  | cat first rest ihfirst ihrest =>
    rw [factoredBranches, branchesMeaning_opened, itemsMeaning_append,
      itemsMeaning_closed (hne first), itemsMeaning_closed (hne rest), hshare first ihfirst,
      hshare rest ihrest, meaning]
  | alt first rest ihfirst ihrest =>
    rw [factoredBranches, branchesMeaning_append, ihfirst, ihrest, meaning]

theorem share_factoredBranches_ne_nil (regex : Regex) : share regex.factoredBranches ≠ [] :=
  share_ne_nil (factoredBranches_ne_nil regex)

theorem branchesMeaning_share_factoredBranches (regex : Regex) :
    branchesMeaning (share regex.factoredBranches) = regex.meaning := by
  rw [branchesMeaning_share (factoredBranches_ne_nil regex), branchesMeaning_factoredBranches]

/-- An expression and the form in which it is matched mean the same. -/
theorem meaning_factored (regex : Regex) : regex.factored.meaning = regex.meaning := by
  rw [factored, meaning_ofBranches (share_factoredBranches_ne_nil regex),
    branchesMeaning_share_factoredBranches]

end MotifSearch.Regex
