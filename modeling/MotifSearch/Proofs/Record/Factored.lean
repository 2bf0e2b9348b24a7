import MotifSearch.Proofs.Record.Mode
import MotifSearch.Proofs.Regex.Factoring
import MotifSearch.Proofs.Regex.Sharing

/-!
# The form that is matched leads through the same modes

The modes of an expression are kept when what all branches of a choice begin with is moved to its
front. Where a record is being closed, only one item may stand, so it matters that no choice is
divided there: if all branches share what comes before that item, they share the item as well.

## Main definitions

* `Regex.BranchLeads`, `Regex.BranchesLead` — the items of a branch, all branches lead from mode to
  mode
* `Mode.closingItem` — what may stand where a record is being closed

## Main results

* `branchesLead_share` — sharing keeps the modes
* `Leads.factored` — the form that is matched leads from record to record if the expression does
-/

namespace MotifSearch

/-- The only item that may stand in a mode in which a record is being closed. -/
def Mode.closingItem (control : Regex) : Mode → Regex
  | running => Record.lineItem
  | closing => .plain '\n'
  | _ => .loop .zeroOrMore false control

namespace Regex

variable {control regex : Regex} {mode middle next : Mode} {items first second : List Regex}
variable {branches : List (List Regex)}

/-- The items of a branch lead from one mode to another one. None of them is a sequence. -/
def BranchLeads (control : Regex) (items : List Regex) (mode next : Mode) : Prop :=
  ItemsLead control items mode next ∧ ∀ item ∈ items, item.isCat = false

/-- All branches of a choice lead from one mode to another one. -/
def BranchesLead (control : Regex) (branches : List (List Regex)) (mode next : Mode) : Prop :=
  ∀ branch ∈ branches, BranchLeads control branch mode next

theorem BranchLeads.nil (mode : Mode) : BranchLeads control [] mode mode :=
  ⟨rfl, by simp⟩

theorem BranchLeads.cons (hcat : regex.isCat = false) (h : Leads control regex mode middle)
    (hitems : BranchLeads control items middle next) :
    BranchLeads control (regex :: items) mode next := by
  refine ⟨⟨middle, h, hitems.1⟩, ?_⟩
  intro item hitem
  rcases List.mem_cons.mp hitem with rfl | hitem
  · exact hcat
  · exact hitems.2 item hitem

theorem BranchLeads.singleton (hcat : regex.isCat = false) (h : Leads control regex mode next) :
    BranchLeads control [regex] mode next :=
  .cons hcat h (.nil next)

theorem BranchLeads.append (hfirst : BranchLeads control first mode middle)
    (hsecond : BranchLeads control second middle next) :
    BranchLeads control (first ++ second) mode next := by
  refine ⟨hfirst.1.append hsecond.1, ?_⟩
  intro item hitem
  rcases List.mem_append.mp hitem with hitem | hitem
  · exact hfirst.2 item hitem
  · exact hsecond.2 item hitem

theorem BranchLeads.of_append (h : BranchLeads control (first ++ second) mode next) :
    ∃ middle, BranchLeads control first mode middle ∧ BranchLeads control second middle next := by
  obtain ⟨middle, hfirst, hsecond⟩ := h.1.of_append
  exact ⟨middle, ⟨hfirst, fun item hitem => h.2 item (List.mem_append_left _ hitem)⟩,
    hsecond, fun item hitem => h.2 item (List.mem_append_right _ hitem)⟩

theorem ItemsLead.unique {other : Mode} (h : ItemsLead control items mode next)
    (hother : ItemsLead control items mode other) : next = other := by
  induction items generalizing mode with
  | nil => exact h.symm.trans hother
  | cons item items ih =>
    obtain ⟨middle, hitem, h⟩ := h
    obtain ⟨otherMiddle, hitemOther, hother⟩ := hother
    obtain rfl := hitem.unique hitemOther
    exact ih h hother

/-- The items of an expression lead as the expression does. -/
theorem Leads.branchLeads_items (h : Leads control regex mode next) :
    BranchLeads control regex.items mode next := by
  induction h with
  | empty => exact .nil _
  | cat hcat hfirst _ _ ih => exact .cons hcat hfirst ih
  | chars h => exact .singleton rfl (.chars h)
  | lineStart => exact .singleton rfl .lineStart
  | rest hbody => exact .singleton rfl (.rest hbody)
  | line => exact .singleton rfl .line
  | skip => exact .singleton rfl .skip
  | group hmode hnext hbody => exact .singleton rfl (.group hmode hnext hbody)
  | optional hmode hbody => exact .singleton rfl (.optional hmode hbody)
  | oneOrMore hmode hnext hfirst hagain =>
    exact .singleton rfl (.oneOrMore hmode hnext hfirst hagain)
  | zeroOrMore hmode hbody => exact .singleton rfl (.zeroOrMore hmode hbody)
  | alt hmode hnext hfirst hrest => exact .singleton rfl (.alt hmode hnext hfirst hrest)

theorem BranchesLead.singleton (h : BranchLeads control items mode next) :
    BranchesLead control [items] mode next := by
  intro branch hbranch
  obtain rfl := List.mem_singleton.mp hbranch
  exact h

theorem BranchesLead.append {others : List (List Regex)}
    (h : BranchesLead control branches mode next)
    (hothers : BranchesLead control others mode next) :
    BranchesLead control (branches ++ others) mode next := by
  intro branch hbranch
  rcases List.mem_append.mp hbranch with hbranch | hbranch
  · exact h branch hbranch
  · exact hothers branch hbranch

theorem BranchesLead.cons (h : BranchLeads control items mode next)
    (hbranches : BranchesLead control branches mode next) :
    BranchesLead control (items :: branches) mode next :=
  BranchesLead.append (.singleton h) hbranches

/-- The branches of an expression lead as the expression does. -/
theorem Leads.branchesLead_branches (h : Leads control regex mode next) :
    BranchesLead control regex.branches mode next := by
  induction regex with
  | alt first rest _ ih =>
    cases h with
    | alt _ _ hfirst hrest => exact .append (.singleton hfirst.branchLeads_items) (ih hrest)
  | empty | chars | lineStart | notAhead | group | loop | cat =>
    exact .singleton h.branchLeads_items

/-- No choice is made where a record is being closed. -/
theorem Leads.branches_eq (h : Leads control regex mode next)
    (hclosed : mode.isOpen = false ∨ next.isOpen = false) : regex.branches = [regex.items] := by
  cases h with
  | alt hmode hnext => simp [hmode, hnext] at hclosed
  | empty | chars | lineStart | rest | line | skip | group | optional | oneOrMore | zeroOrMore
  | cat => rfl

theorem branchesLead_opened (h : BranchLeads control items mode next) :
    BranchesLead control (opened items) mode next := by
  unfold opened
  split
  · obtain ⟨⟨middle, hitem, rfl⟩, -⟩ := h
    exact hitem.branchesLead_branches
  · exact .singleton h

theorem exists_opened_eq (h : BranchLeads control items mode next)
    (hclosed : mode.isOpen = false ∨ next.isOpen = false) : ∃ branch, opened items = [branch] := by
  unfold opened
  split
  · obtain ⟨⟨middle, hitem, rfl⟩, -⟩ := h
    exact ⟨_, hitem.branches_eq hclosed⟩
  · exact ⟨items, rfl⟩

theorem leads_concat (h : BranchLeads control items mode next)
    (hmode : items ≠ [] ∨ mode.isOpen = true) : Leads control (concat items) mode next := by
  induction items generalizing mode with
  | nil =>
    obtain ⟨rfl, -⟩ := h
    exact .empty (hmode.resolve_left (by simp))
  | cons item items ih =>
    obtain ⟨⟨middle, hitem, hitems⟩, hcat⟩ := h
    cases items with
    | nil =>
      obtain rfl : middle = next := hitems
      exact hitem
    | cons other items =>
      have hrest := ih ⟨hitems, fun item h => hcat item (List.mem_cons_of_mem _ h)⟩
        (Or.inl (by simp))
      exact .cat (hcat item List.mem_cons_self) hitem hrest

theorem leads_alternatives {choices : List Regex} (hne : choices ≠ [])
    (hmode : mode.isOpen = true) (hnext : next.isOpen = true)
    (h : ∀ regex ∈ choices, Leads control regex mode next) :
    Leads control (alternatives choices) mode next := by
  induction choices with
  | nil => exact absurd rfl hne
  | cons regex choices ih =>
    have hregex := h regex List.mem_cons_self
    cases choices with
    | nil => exact hregex
    | cons other choices =>
      exact .alt hmode hnext hregex
        (ih (by simp) fun regex hmem => h regex (List.mem_cons_of_mem _ hmem))

theorem leads_ofBranches (h : BranchesLead control branches mode next) (hne : branches ≠ [])
    (hmode : mode.isOpen = true) (hnext : next.isOpen = true) :
    Leads control (ofBranches branches) mode next := by
  apply leads_alternatives (by simpa using hne) hmode hnext
  intro regex hregex
  obtain ⟨branch, hbranch, rfl⟩ := List.mem_map.mp hregex
  exact leads_concat (h branch hbranch) (Or.inr hmode)

theorem branchLeads_closed (h : BranchesLead control branches mode next) (hne : branches ≠ [])
    (hmode : mode.isOpen = true) (hnext : next.isOpen = true) :
    BranchLeads control (closed branches) mode next := by
  unfold closed
  split
  · exact h _ List.mem_cons_self
  · next hsingle =>
    refine .singleton ?_ (leads_ofBranches h hne hmode hnext)
    match branches with
    | [] => exact absurd rfl hne
    | [branch] => exact absurd rfl (hsingle branch)
    | _ :: _ :: _ => rfl

/-- Where a record is being closed, there is one item only. -/
theorem Leads.eq_closingItem (h : Leads control regex mode next) (hmode : mode.isOpen = false)
    (hcat : regex.isCat = false) : regex = mode.closingItem control := by
  have hopen : ∀ {P : Prop}, mode.isOpen = true → P := fun h => by simp [h] at hmode
  cases h with
  | empty h | group h | optional h | oneOrMore h | zeroOrMore h | alt h => exact hopen h
  | chars h =>
    cases mode with
    | between | opening | inside | sounding => cases hmode
    | running | ended => cases h
    | closing =>
      simp only [CharSet.after?] at h
      split at h
      · next heq =>
        rw [heq]
        rfl
      · cases h
  | lineStart | rest => cases hmode
  | line | skip => rfl
  | cat => cases hcat

/-- What branches share leads to one mode, from which all of them go on. -/
private theorem exists_branchLeads_shared {shared : List Regex}
    (h : BranchesLead control branches mode next) (hne : branches ≠ [])
    (hshared : ∀ branch ∈ branches, ∃ rest, branch = shared ++ rest) :
    ∃ middle, BranchLeads control shared mode middle ∧
      ∀ rest, shared ++ rest ∈ branches → BranchLeads control rest middle next := by
  obtain ⟨branch, hbranch⟩ := List.exists_mem_of_ne_nil branches hne
  obtain ⟨rest, rfl⟩ := hshared branch hbranch
  obtain ⟨middle, hmiddle, -⟩ := (h _ hbranch).of_append
  refine ⟨middle, hmiddle, ?_⟩
  intro other hother
  obtain ⟨otherMiddle, hotherMiddle, hrest⟩ := (h _ hother).of_append
  obtain rfl := hmiddle.1.unique hotherMiddle.1
  exact hrest

/-- Two lists at least are put together from two lists at least. -/
theorem exists_flatMap_eq {f : List Regex → List (List Regex)} (h : ∀ branch, f branch ≠ [])
    (first second : List Regex) (more : List (List Regex)) :
    ∃ head next others, (first :: second :: more).flatMap f = head :: next :: others := by
  obtain ⟨head, tail, hhead⟩ := List.exists_cons_of_ne_nil (h first)
  obtain ⟨next, others, hnext⟩ := List.exists_cons_of_ne_nil (h second)
  rw [List.flatMap_cons, List.flatMap_cons, hhead, hnext]
  cases tail with
  | nil => exact ⟨head, next, others ++ more.flatMap f, rfl⟩
  | cons other tail => exact ⟨head, other, tail ++ (next :: others ++ more.flatMap f), rfl⟩

/-- No item of a record that is being closed is taken together with the next one. -/
private theorem not_joinsRun_closingItem {rest : List Regex} (hmode : mode.isOpen = false)
    (hcat : ∀ item ∈ rest, item.isCat = false)
    (h : ItemsLead control (mode.closingItem control :: rest) mode next) :
    ¬ JoinsRun (mode.closingItem control) rest := by
  rintro ⟨hplain, other, hother, hotherPlain⟩
  cases mode with
  | between | opening | inside | sounding => cases hmode
  | running | ended => cases hplain
  | closing =>
    -- After the newline there is a loop over records without notes, if anything.
    cases rest with
    | nil => cases hother
    | cons head tail =>
      obtain rfl := Option.mem_some.mp hother
      obtain ⟨middle, hitem, after, hhead, -⟩ := h
      obtain rfl := hitem.unique (.chars rfl : Leads control (.plain '\n') .closing .ended)
      rw [hhead.eq_closingItem rfl (hcat head List.mem_cons_self)] at hotherPlain
      cases hotherPlain

/-- After what branches share, no record is being closed, since they would share the next item as
well. -/
private theorem isOpen_of_shared {shared : List Regex} (hcontrol : control.captures = false)
    (hnext : next.isOpen = true) (hne : sharedItems branches ≠ [])
    (hshared : sharedItems branches = shared)
    (hrest : ∀ branch ∈ branches, ∃ rest, branch = shared ++ rest)
    (hothers : ∀ rest, shared ++ rest ∈ branches → BranchLeads control rest middle next) :
    middle.isOpen = true := by
  rw [← Bool.not_eq_false]
  intro hopen
  have hcaptures : (middle.closingItem control).captures = false := by
    cases middle with
    | running | closing => rfl
    | between | opening | inside | sounding | ended => exact hcontrol
  apply exists_branch_not_going_on hne hcaptures
  intro branch hbranch
  obtain ⟨rest, rfl⟩ := hrest branch hbranch
  obtain ⟨hrest, hcat⟩ := hothers rest hbranch
  cases rest with
  | nil =>
    obtain rfl : middle = next := hrest
    rw [hopen] at hnext
    cases hnext
  | cons head tail =>
    have hhead : head = middle.closingItem control := by
      obtain ⟨after, hhead, -⟩ := hrest
      exact hhead.eq_closingItem hopen (hcat head List.mem_cons_self)
    subst hhead
    refine ⟨tail, by rw [hshared], ?_⟩
    exact not_joinsRun_closingItem hopen (fun item h => hcat item (List.mem_cons_of_mem _ h)) hrest

/-- Sharing keeps the modes. -/
theorem branchesLead_share (h : BranchesLead control branches mode next)
    (hcontrol : control.captures = false) (hnext : next.isOpen = true) :
    BranchesLead control (share branches) mode next := by
  unfold share
  split
  · exact h
  · next item others hshared =>
    have hne : sharedItems branches ≠ [] := by simp [hshared]
    have hrest : ∀ branch ∈ branches, ∃ rest, branch = item :: others ++ rest := by
      intro branch hbranch
      obtain ⟨rest, hrest⟩ := hshared ▸ sharedItems_prefix hbranch
      exact ⟨rest, hrest.symm⟩
    obtain ⟨first, second, more, rfl⟩ := exists_cons_cons_of_sharedItems hne
    obtain ⟨middle, hmiddle, hothers⟩ := exists_branchLeads_shared h (by simp) hrest
    have hopen := isOpen_of_shared hcontrol hnext hne hshared hrest hothers
    have hopened : BranchesLead control ((first :: second :: more).flatMap fun branch =>
        opened (branch.drop (item :: others).length)) middle next := by
      intro branch hbranch
      obtain ⟨whole, hwhole, hbranch⟩ := List.mem_flatMap.mp hbranch
      obtain ⟨rest, rfl⟩ := hrest whole hwhole
      rw [List.drop_left] at hbranch
      exact branchesLead_opened (hothers rest hwhole) branch hbranch
    obtain ⟨head, tail, rests, heq⟩ := exists_flatMap_eq
      (fun branch => opened_ne_nil (branch.drop (item :: others).length)) first second more
    -- There are two branches at least, so what is left of them is a choice and no sequence.
    dsimp only
    rw [heq] at hopened ⊢
    exact .singleton (hmiddle.append (.singleton rfl
      (leads_ofBranches hopened (by simp) hopen hnext)))

/-- What is known of the branches of an expression: they lead as the expression does, and there is
only one of them where a record is being closed. -/
structure Keeps (branches : List (List Regex)) (mode next : Mode) : Prop where
  leads : BranchesLead Record.matchedControl branches mode next
  eq_singleton : mode.isOpen = false ∨ next.isOpen = false → ∃ branch, branches = [branch]

theorem Keeps.share (h : Keeps branches mode next) : Keeps (share branches) mode next := by
  by_cases hclosed : mode.isOpen = false ∨ next.isOpen = false
  · obtain ⟨branch, rfl⟩ := h.eq_singleton hclosed
    exact h
  · obtain ⟨-, hnext⟩ := not_or.mp hclosed
    rw [Bool.not_eq_false] at hnext
    exact ⟨branchesLead_share h.leads rfl hnext, fun h => absurd h hclosed⟩

theorem Keeps.closed (h : Keeps branches mode next) (hne : branches ≠ []) :
    BranchLeads Record.matchedControl (closed branches) mode next := by
  by_cases hclosed : mode.isOpen = false ∨ next.isOpen = false
  · obtain ⟨branch, rfl⟩ := h.eq_singleton hclosed
    exact h.leads branch List.mem_cons_self
  · obtain ⟨hmode, hnext⟩ := not_or.mp hclosed
    rw [Bool.not_eq_false] at hmode hnext
    exact branchLeads_closed h.leads hne hmode hnext

private theorem Keeps.singleton (h : BranchLeads Record.matchedControl items mode next) :
    Keeps [items] mode next :=
  ⟨.singleton h, fun _ => ⟨items, rfl⟩⟩

/-- The branches of an expression keep what is known of it. -/
theorem Leads.keeps (h : Leads Record.controlItem regex mode next) :
    Keeps regex.factoredBranches mode next := by
  have hne := fun regex : Regex => share_ne_nil (factoredBranches_ne_nil regex)
  -- Where a record is being closed there are only its rest, characters, loops over records without
  -- notes and sequences of them, all of which are single branches.
  induction h with
  | empty => exact .singleton (.nil _)
  | chars h => exact .singleton (.singleton rfl (.chars h))
  | lineStart => exact .singleton (.singleton rfl .lineStart)
  | rest hbody =>
    rcases hbody with rfl | rfl <;> exact .singleton (.singleton rfl (.rest (Or.inl rfl)))
  | line => exact .singleton (.singleton rfl .line)
  | skip => exact .singleton (.singleton rfl .skip)
  | @group captures body _ _ hmode hnext _ ih =>
    cases captures with
    | false => exact ih.share
    | true =>
      have hbody := leads_ofBranches ih.share.leads (hne body) hmode hnext
      exact .singleton (.singleton rfl (.group hmode hnext hbody))
  | @optional greedy body _ hmode _ ih =>
    have hbody := leads_ofBranches ih.share.leads (hne body) hmode hmode
    have hloop : Leads _ (loop .optional greedy _) _ _ := .optional hmode hbody
    cases hreads : body.readsNothing <;>
      simpa only [factoredBranches, loopBranches, hreads] using
        Keeps.singleton (.singleton rfl hloop)
  | @oneOrMore greedy body _ _ hmode hnext _ _ ihfirst ihagain =>
    have hfirst := leads_ofBranches ihfirst.share.leads (hne body) hmode hnext
    have hagain := leads_ofBranches ihagain.share.leads (hne body) hnext hnext
    have hloop : Leads _ (loop .oneOrMore greedy _) _ _ := .oneOrMore hmode hnext hfirst hagain
    cases hreads : body.readsNothing with
    | false =>
      simpa only [factoredBranches, loopBranches, hreads] using
        Keeps.singleton (.singleton rfl hloop)
    | true => simpa only [factoredBranches, loopBranches, hreads] using ihfirst.share
  | @zeroOrMore greedy body _ hmode _ ih =>
    have hbody := leads_ofBranches ih.share.leads (hne body) hmode hmode
    have hloop : Leads _ (loop .zeroOrMore greedy _) _ _ := .zeroOrMore hmode hbody
    have honce : Leads _ (loop .optional greedy _) _ _ := .optional hmode hbody
    cases hreads : body.readsNothing with
    | false =>
      simpa only [factoredBranches, loopBranches, hreads] using
        Keeps.singleton (.singleton rfl hloop)
    | true =>
      simpa only [factoredBranches, loopBranches, hreads] using
        Keeps.singleton (.singleton rfl honce)
  | @cat first rest _ _ _ hcat hfirst hrest ihfirst ihrest =>
    have hitems := (ihfirst.share.closed (hne first)).append (ihrest.share.closed (hne rest))
    exact ⟨branchesLead_opened hitems, exists_opened_eq hitems⟩
  | alt hmode hnext _ _ ihfirst ihrest =>
    refine ⟨ihfirst.leads.append ihrest.leads, ?_⟩
    intro hclosed
    simp [hmode, hnext] at hclosed

/-- The form that is matched leads from record to record if the expression does. -/
theorem Leads.factored (h : Leads Record.controlItem regex .between .between) :
    Leads Record.matchedControl regex.factored .between .between :=
  leads_ofBranches h.keeps.share.leads (share_ne_nil (factoredBranches_ne_nil regex)) rfl rfl

end Regex

end MotifSearch
