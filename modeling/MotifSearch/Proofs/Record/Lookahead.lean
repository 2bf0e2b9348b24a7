import MotifSearch.Proofs.Record.Factored

/-!
# Guards that look ahead

A note ends its pitch with a guard, an optional rest of the record that does not begin with what
would go on with the pitch; then the newline follows. The guard can be written as a lookahead
instead: nothing follows that would go on with the pitch, and then any rest of the line. In the form
that is matched, the one item of a guard becomes two items then, and everything else is as it was.
What branches share is the same as before, because no choice is divided between a guard and the
newline after it.

## Main definitions

* `Regex.lookingAhead` — an expression whose guards look ahead
* `Regex.guarded` — an expression in the form that is matched, with guards that look ahead

## Main results

* `guarded_injective` — expressions that differ also differ where their guards look ahead
* `share_guardedItems` — what branches share with guards that look ahead
* `Leads.factored_lookingAhead` — the form in which an expression that looks ahead is matched
-/

namespace MotifSearch

namespace Record

/-- The characters that would go on with a pitch. -/
def pitchGoesOn : CharSet :=
  .oneOf [.range 'a' 'g', .range 'A' 'G', .single 'n', .single '#', .single '-']

/-- A guard in the form that is matched. -/
def guardItem : Regex :=
  .loop .optional true restBody

/-- The items of a guard that looks ahead: nothing that would go on with the pitch follows, and then
the rest of the line. -/
def aheadItems : List Regex :=
  [.notAhead pitchGoesOn, lineItem]

end Record

namespace Regex

open Record (restItem restBody guardItem aheadItems lineItem pitchGoesOn)

/-- An expression whose guards look ahead. A guard may have brackets around its body or not. -/
def lookingAhead : Regex → Regex
  | loop times greedy body =>
    if loop times greedy body = restItem ∨ loop times greedy body = guardItem then
      concat aheadItems
    else loop times greedy body.lookingAhead
  | group captures body => group captures body.lookingAhead
  | cat first rest => cat first.lookingAhead rest.lookingAhead
  | alt first rest => alt first.lookingAhead rest.lookingAhead
  | item => item

/-- An expression in the form that is matched, with guards that look ahead: a sequence stays a
sequence of items. -/
def guarded : Regex → Regex
  | loop times greedy body =>
    if loop times greedy body = guardItem then concat aheadItems
    else loop times greedy body.guarded
  | group captures body => group captures body.guarded
  | cat first rest =>
    if first = guardItem then cat (.notAhead pitchGoesOn) (cat lineItem rest.guarded)
    else cat first.guarded rest.guarded
  | alt first rest => alt first.guarded rest.guarded
  | item => item

/-- The items that stand for an item where guards look ahead. -/
def guardedItem (item : Regex) : List Regex :=
  if item = guardItem then aheadItems else [item.guarded]

/-- The items of a branch where guards look ahead. -/
def guardedItems (items : List Regex) : List Regex :=
  items.flatMap guardedItem

/-- Whether an expression looks ahead anywhere. -/
def looksAhead : Regex → Bool
  | notAhead _ => true
  | group _ body | loop _ _ body => body.looksAhead
  | cat first rest | alt first rest => first.looksAhead || rest.looksAhead
  | _ => false

section Items

variable {item : Regex} {first second : List Regex}

theorem guarded_guardItem : guardItem.guarded = concat aheadItems :=
  if_pos rfl

theorem guarded_loop {times : Repeat} {greedy : Bool} {body : Regex}
    (h : loop times greedy body ≠ guardItem) :
    (loop times greedy body).guarded = loop times greedy body.guarded := by
  rw [guarded, if_neg h]

@[simp] theorem guardedItems_nil : guardedItems [] = [] := rfl

@[simp] theorem guardedItems_cons (item : Regex) (items : List Regex) :
    guardedItems (item :: items) = guardedItem item ++ guardedItems items := rfl

@[simp] theorem guardedItems_append (first second : List Regex) :
    guardedItems (first ++ second) = guardedItems first ++ guardedItems second :=
  List.flatMap_append

theorem guardedItem_of_ne (h : item ≠ guardItem) : guardedItem item = [item.guarded] := by
  rw [guardedItem, if_neg h]

theorem guardedItems_singleton (h : item ≠ guardItem) : guardedItems [item] = [item.guarded] := by
  rw [guardedItems_cons, guardedItem_of_ne h]
  rfl

/-- Items none of which is a guard. -/
theorem guardedItems_of_forall_ne {items : List Regex} (h : ∀ item ∈ items, item ≠ guardItem) :
    guardedItems items = items.map guarded := by
  induction items with
  | nil => rfl
  | cons item items ih =>
    obtain ⟨hitem, hitems⟩ := List.forall_mem_cons.mp h
    rw [guardedItems_cons, guardedItem_of_ne hitem, ih hitems]
    rfl

theorem guardedItems_drop (h : first <+: second) :
    guardedItems (second.drop first.length) =
      (guardedItems second).drop (guardedItems first).length := by
  obtain ⟨rest, rfl⟩ := h
  rw [List.drop_left, guardedItems_append, List.drop_left]

theorem guardedItem_ne_nil (item : Regex) : guardedItem item ≠ [] := by
  rw [guardedItem]
  split <;> simp [aheadItems]

theorem guarded_eq_concat (item : Regex) : item.guarded = concat (guardedItem item) := by
  rw [guardedItem]
  split
  · next h => rw [h, guarded_guardItem]
  · rfl

/-- A sequence of items is one where guards look ahead, too. -/
theorem guarded_concat (items : List Regex) :
    (concat items).guarded = concat (guardedItems items) := by
  induction items with
  | nil => rfl
  | cons item items ih =>
    cases items with
    | nil => rw [concat_singleton, guarded_eq_concat, guardedItems_cons, guardedItems_nil,
        List.append_nil]
    | cons next items =>
      obtain ⟨head, tail, htail⟩ := List.exists_cons_of_ne_nil (guardedItem_ne_nil next)
      rw [guardedItems_cons, htail, List.cons_append] at ih
      rw [concat_cons_cons, guarded, ih, guardedItems_cons, guardedItems_cons, htail, guardedItem,
        List.cons_append]
      split <;> rfl

theorem guarded_ofBranches (branches : List (List Regex)) :
    (ofBranches branches).guarded = ofBranches (branches.map guardedItems) := by
  rw [ofBranches, ofBranches]
  induction branches with
  | nil => rfl
  | cons branch branches ih =>
    cases branches with
    | nil => exact guarded_concat branch
    | cons next branches =>
      simp only [List.map_cons, alternatives_cons_cons, guarded] at ih ⊢
      rw [ih, guarded_concat]

theorem items_guarded (regex : Regex) : regex.guarded.items = guardedItems regex.items := by
  induction regex with
  | cat first rest _ ih =>
    rw [guarded, items, guardedItems_cons, guardedItem]
    split
    · rw [items, items, ih]
      rfl
    · rw [items, ih]
      rfl
  | loop times greedy body _ =>
    have hitems : (loop times greedy body).items = [loop times greedy body] := rfl
    rw [hitems, guardedItems_cons, guardedItems_nil, List.append_nil, guardedItem, guarded]
    split <;> rfl
  | empty | chars | lineStart | notAhead | group | alt => rfl

theorem branches_guarded (regex : Regex) :
    regex.guarded.branches = regex.branches.map guardedItems := by
  have hitems : ∀ regex : Regex, regex.isAlt = false → regex.guarded.isAlt = false →
      regex.guarded.branches = regex.branches.map guardedItems := by
    intro regex hregex hguarded
    have hbranches : ∀ regex : Regex, regex.isAlt = false → regex.branches = [regex.items] := by
      intro regex h
      cases regex <;> first | rfl | cases h
    rw [hbranches _ hregex, hbranches _ hguarded, items_guarded]
    rfl
  induction regex with
  | alt first rest _ ih => rw [guarded, branches, branches, ih, items_guarded]; rfl
  | loop times greedy body _ =>
    refine hitems _ rfl ?_
    rw [guarded]
    split <;> rfl
  | cat first rest _ _ =>
    refine hitems _ rfl ?_
    rw [guarded]
    split <;> rfl
  | empty | chars | lineStart | notAhead | group => exact hitems _ rfl rfl

theorem opened_guardedItems (items : List Regex) :
    opened (guardedItems items) = (opened items).map guardedItems := by
  match items with
  | [] => rfl
  | [item] =>
    by_cases h : item = guardItem
    · subst h
      rfl
    · rw [guardedItems_singleton h, opened, opened, branches_guarded]
  | first :: second :: others =>
    -- Two items at least stay two items at least.
    have hlength : 2 ≤ (guardedItems (first :: second :: others)).length := by
      have hfirst := List.length_pos_iff.mpr (guardedItem_ne_nil first)
      have hsecond := List.length_pos_iff.mpr (guardedItem_ne_nil second)
      simp only [guardedItems_cons, List.length_append]
      omega
    have hopened : ∀ items : List Regex, 2 ≤ items.length → opened items = [items] := by
      intro items h
      match items with
      | [] | [_] => simp at h
      | _ :: _ :: _ => rfl
    rw [hopened _ hlength, hopened _ (by simp)]
    rfl

/-- A choice between two branches at least is not a guard. -/
theorem ofBranches_ne_guardItem (first second : List Regex) (others : List (List Regex)) :
    ofBranches (first :: second :: others) ≠ guardItem := by
  rw [ofBranches, List.map_cons, List.map_cons, alternatives_cons_cons]
  intro h
  cases h

theorem closed_guardedItems {branches : List (List Regex)} (h : branches ≠ []) :
    closed (branches.map guardedItems) = guardedItems (closed branches) := by
  match branches with
  | [] => exact absurd rfl h
  | [branch] => rfl
  | first :: second :: others =>
    have hclosed : ∀ first second : List Regex, ∀ others,
        closed (first :: second :: others) = [ofBranches (first :: second :: others)] :=
      fun _ _ _ => rfl
    rw [hclosed, guardedItems_singleton (ofBranches_ne_guardItem _ _ _), guarded_ofBranches]
    rfl

end Items

section Injective

/-- An expression in the form that is matched, with its guards as they were. -/
def unguarded : Regex → Regex
  | cat (notAhead _) (cat _ rest) => cat guardItem rest.unguarded
  | cat (notAhead _) _ => guardItem
  | cat first rest => cat first.unguarded rest.unguarded
  | alt first rest => alt first.unguarded rest.unguarded
  | group captures body => group captures body.unguarded
  | loop times greedy body => loop times greedy body.unguarded
  | item => item

variable {regex other : Regex}

/-- Only guards become lookaheads. -/
private theorem guarded_ne_notAhead (h : regex.looksAhead = false) (set : CharSet) :
    regex.guarded ≠ notAhead set := by
  cases regex with
  | notAhead => cases h
  | loop =>
    rw [guarded]
    split <;> exact nofun
  | cat =>
    rw [guarded]
    split <;> exact nofun
  | empty | chars | lineStart | group | alt => exact nofun

private theorem unguarded_cat {first rest : Regex} (h : ∀ set, first ≠ notAhead set) :
    (cat first rest).unguarded = cat first.unguarded rest.unguarded := by
  cases first with
  | notAhead set => exact absurd rfl (h set)
  | empty | chars | lineStart | group | loop | cat | alt => rfl

/-- The guards of an expression that does not look ahead can be restored. -/
theorem unguarded_guarded (h : regex.looksAhead = false) : regex.guarded.unguarded = regex := by
  induction regex with
  | notAhead => cases h
  | empty | chars | lineStart => rfl
  | group captures body ih => rw [guarded, unguarded, ih h]
  | alt first rest ihfirst ihrest =>
    obtain ⟨hfirst, hrest⟩ := Bool.or_eq_false_iff.mp h
    rw [guarded, unguarded, ihfirst hfirst, ihrest hrest]
  | loop times greedy body ih =>
    rw [guarded]
    split
    · next hguard => exact hguard.symm
    · rw [unguarded, ih h]
  | cat first rest ihfirst ihrest =>
    obtain ⟨hfirst, hrest⟩ := Bool.or_eq_false_iff.mp h
    rw [guarded]
    split
    · next hguard => rw [unguarded, ihrest hrest, hguard]
    · rw [unguarded_cat (guarded_ne_notAhead hfirst), ihfirst hfirst, ihrest hrest]

/-- Expressions that differ also differ where their guards look ahead. -/
theorem guarded_injective (h : regex.looksAhead = false) (hother : other.looksAhead = false)
    (heq : regex.guarded = other.guarded) : regex = other := by
  rw [← unguarded_guarded h, heq, unguarded_guarded hother]

end Injective

section Runs

/-- The runs that stand for a run where guards look ahead. -/
def guardedRun (run : List Regex) : List (List Regex) :=
  if run = [guardItem] then aheadItems.map fun item => [item] else [run.map guarded]

/-- The runs that stand for several runs where guards look ahead. -/
def guardedRuns (runs : List (List Regex)) : List (List Regex) :=
  runs.flatMap guardedRun

variable {item : Regex} {items branch run : List Regex} {branches first second : List (List Regex)}

@[simp] theorem guardedRuns_cons (run : List Regex) (runs : List (List Regex)) :
    guardedRuns (run :: runs) = guardedRun run ++ guardedRuns runs := rfl

theorem guardedRun_of_ne (h : run ≠ [guardItem]) : guardedRun run = [run.map guarded] := by
  rw [guardedRun, if_neg h]

theorem isPlain_guarded (regex : Regex) : regex.guarded.isPlain = regex.isPlain := by
  cases regex with
  | loop =>
    rw [guarded]
    split <;> rfl
  | cat =>
    rw [guarded]
    split <;> rfl
  | empty | chars | lineStart | notAhead | group | alt => rfl

theorem captures_guarded (regex : Regex) : regex.guarded.captures = regex.captures := by
  induction regex with
  | loop times greedy body ih =>
    rw [guarded]
    split
    · next h => rw [h]; rfl
    · exact ih
  | cat first rest ihfirst ihrest =>
    rw [guarded]
    split
    · next h =>
      rw [captures, captures, captures, ihrest, h]
      rfl
    · rw [captures, captures, ihfirst, ihrest]
  | group captures body ih => rw [guarded, Regex.captures, Regex.captures, ih]
  | alt first rest ihfirst ihrest => rw [guarded, captures, captures, ihfirst, ihrest]
  | empty | chars | lineStart | notAhead => rfl

theorem any_isPlain_guarded (run : List Regex) :
    (run.map guarded).any isPlain = run.any isPlain := by
  rw [List.any_map]
  congr 1
  exact funext isPlain_guarded

theorem any_captures_guarded (run : List Regex) :
    (run.map guarded).any captures = run.any captures := by
  rw [List.any_map]
  congr 1
  exact funext captures_guarded

/-- An item before some runs: it joins the first one if both are plain. -/
def joinRun (item : Regex) : List (List Regex) → List (List Regex)
  | [] => [[item]]
  | run :: others =>
    if item.isPlain && run.any isPlain then (item :: run) :: others else [item] :: run :: others

theorem runs_cons (item : Regex) (items : List Regex) :
    runs (item :: items) = joinRun item (runs items) := rfl

theorem joinRun_of_not_isPlain (h : item.isPlain = false) (runs : List (List Regex)) :
    joinRun item runs = [item] :: runs := by
  cases runs with
  | nil => rfl
  | cons run others => rw [joinRun, h, Bool.false_and, if_neg Bool.false_ne_true]

/-- Next to a run that is not plain an item stays by itself. -/
theorem joinRun_cons_of_not_any (h : run.any isPlain = false) (item : Regex)
    (others : List (List Regex)) : joinRun item (run :: others) = [item] :: run :: others := by
  rw [joinRun, h, Bool.and_false, if_neg Bool.false_ne_true]

theorem guardedRuns_guardItem_cons (others : List (List Regex)) :
    guardedRuns ([guardItem] :: others) =
      [.notAhead pitchGoesOn] :: [lineItem] :: guardedRuns others := rfl

/-- An item that is no guard joins the same runs where guards look ahead. -/
theorem joinRun_guarded (h : item ≠ guardItem) (runs : List (List Regex)) :
    joinRun item.guarded (guardedRuns runs) = guardedRuns (joinRun item runs) := by
  have hne : ∀ run : List Regex, item :: run ≠ [guardItem] :=
    fun run heq => h (List.cons.inj heq).1
  have hsingle : guardedRun [item] = [[item.guarded]] := guardedRun_of_ne (hne [])
  cases runs with
  | nil => rw [joinRun, guardedRuns_cons, hsingle]; rfl
  | cons run others =>
    by_cases hrun : run = [guardItem]
    · subst hrun
      rw [joinRun_cons_of_not_any rfl, guardedRuns_guardItem_cons, joinRun_cons_of_not_any rfl,
        guardedRuns_cons, hsingle]
      rfl
    · rw [guardedRuns_cons, guardedRun_of_ne hrun, List.singleton_append, joinRun, joinRun,
        isPlain_guarded, any_isPlain_guarded]
      split
      · rw [guardedRuns_cons, guardedRun_of_ne (hne run)]
        rfl
      · rw [guardedRuns_cons, guardedRuns_cons, hsingle, guardedRun_of_ne hrun]
        rfl

/-- Where guards look ahead, their two items are runs by themselves. -/
theorem runs_guardedItems (items : List Regex) :
    runs (guardedItems items) = guardedRuns (runs items) := by
  -- Runs are made from the right, so an item meets the runs of what comes after it. Neither item of
  -- a guard is plain, and so neither joins them.
  induction items with
  | nil => rfl
  | cons item items ih =>
    rw [guardedItems_cons, runs_cons, guardedItem]
    split
    · next h =>
      rw [h, joinRun_of_not_isPlain rfl, guardedRuns_guardItem_cons, ← ih]
      exact (joinRun_of_not_isPlain rfl _).trans
        (congrArg _ (joinRun_of_not_isPlain rfl (runs (guardedItems items))))
    · next h => rw [List.singleton_append, runs_cons, ih, joinRun_guarded h]

/-- Runs that differ also differ where their guards look ahead. -/
theorem map_guarded_injective {other : List Regex} (h : ∀ item ∈ run, item.looksAhead = false)
    (hother : ∀ item ∈ other, item.looksAhead = false)
    (heq : run.map guarded = other.map guarded) : run = other := by
  induction run generalizing other with
  | nil => exact (List.map_eq_nil_iff.mp heq.symm).symm
  | cons item run ih =>
    obtain _ | ⟨next, other⟩ := other
    · cases heq
    obtain ⟨hitem, hrun⟩ := List.forall_mem_cons.mp h
    obtain ⟨hnext, hothers⟩ := List.forall_mem_cons.mp hother
    obtain ⟨hhead, htail⟩ := List.cons.inj heq
    rw [guarded_injective hitem hnext hhead, ih hrun hothers htail]

/-- A run of a branch does not begin like a guard that looks ahead. -/
theorem map_guarded_ne (h : ∀ item ∈ run, item.looksAhead = false) (set : CharSet) :
    run.map guarded ≠ [.notAhead set] := by
  intro heq
  obtain ⟨item, rest, rfl, hitem, -⟩ := List.map_eq_cons_iff.mp heq
  exact guarded_ne_notAhead (h item List.mem_cons_self) set hitem

theorem commonRuns_cons_of_ne {other : List Regex} (h : run ≠ other)
    (runs others : List (List Regex)) : commonRuns (run :: runs) (other :: others) = [] := by
  rw [commonRuns, if_neg fun hboth => h hboth.1]

/-- What branches begin with, where guards look ahead. -/
theorem commonRuns_guardedRuns (hfirst : ∀ run ∈ first, ∀ item ∈ run, item.looksAhead = false)
    (hsecond : ∀ run ∈ second, ∀ item ∈ run, item.looksAhead = false) :
    commonRuns (guardedRuns first) (guardedRuns second) =
      guardedRuns (commonRuns first second) := by
  induction first generalizing second with
  | nil => rfl
  | cons run first ih =>
    obtain _ | ⟨other, second⟩ := second
    · cases guardedRuns (run :: first) <;> rfl
    obtain ⟨hrun, hfirst⟩ := List.forall_mem_cons.mp hfirst
    obtain ⟨hother, hsecond⟩ := List.forall_mem_cons.mp hsecond
    have ih := ih hfirst hsecond
    by_cases hguard : run = [guardItem] <;> by_cases hguard' : other = [guardItem]
    · -- Both items of the guard are shared.
      have hcaptures : [guardItem].any captures = false := rfl
      have hahead : [Regex.notAhead pitchGoesOn].any captures = false := rfl
      have hline : [lineItem].any captures = false := rfl
      rw [hguard, hguard', guardedRuns_guardItem_cons, guardedRuns_guardItem_cons, commonRuns,
        if_pos ⟨rfl, hahead⟩, commonRuns, if_pos ⟨rfl, hline⟩, commonRuns, if_pos ⟨rfl, hcaptures⟩,
        ih, guardedRuns_guardItem_cons]
    · rw [commonRuns_cons_of_ne (fun h => hguard' (h.symm.trans hguard)), hguard,
        guardedRuns_guardItem_cons, guardedRuns_cons, guardedRun_of_ne hguard',
        List.singleton_append,
        commonRuns_cons_of_ne (map_guarded_ne hother _).symm]
      rfl
    · rw [commonRuns_cons_of_ne (fun h => hguard (h.trans hguard')), hguard',
        guardedRuns_guardItem_cons, guardedRuns_cons, guardedRun_of_ne hguard,
        List.singleton_append, commonRuns_cons_of_ne (map_guarded_ne hrun _)]
      rfl
    · rw [guardedRuns_cons, guardedRuns_cons, guardedRun_of_ne hguard, guardedRun_of_ne hguard',
        List.singleton_append, List.singleton_append, commonRuns, commonRuns, any_captures_guarded,
        ih]
      by_cases hsame : run = other
      · subst hsame
        by_cases hcaptures : run.any captures = false
        · rw [if_pos ⟨rfl, hcaptures⟩, if_pos ⟨rfl, hcaptures⟩, guardedRuns_cons,
            guardedRun_of_ne hguard]
          rfl
        · rw [if_neg fun h => hcaptures h.2, if_neg fun h => hcaptures h.2]
          rfl
      · have hguarded : run.map guarded ≠ other.map guarded :=
          fun heq => hsame (map_guarded_injective hrun hother heq)
        rw [if_neg fun h => hguarded h.1, if_neg fun h => hsame h.1]
        rfl

/-- Branches that can be shared alike where guards look ahead: none of them is a guard and nothing
else, and nothing in them looks ahead. -/
def Shareable (branches : List (List Regex)) : Prop :=
  ∀ branch ∈ branches, branch ≠ [guardItem] ∧ ∀ item ∈ branch, item.looksAhead = false

theorem looksAhead_of_mem_runs (h : ∀ item ∈ items, item.looksAhead = false) :
    ∀ run ∈ runs items, ∀ item ∈ run, item.looksAhead = false := by
  intro run hrun item hitem
  refine h item ?_
  rw [← flatten_runs items]
  exact List.mem_flatten.mpr ⟨run, hrun, hitem⟩

theorem foldl_commonRuns_guardedRuns {shared : List (List Regex)}
    (hshared : ∀ run ∈ shared, ∀ item ∈ run, item.looksAhead = false) (h : Shareable branches) :
    (branches.map guardedItems).foldl (fun all branch => commonRuns all (runs branch))
        (guardedRuns shared) =
      guardedRuns (branches.foldl (fun all branch => commonRuns all (runs branch)) shared) := by
  induction branches generalizing shared with
  | nil => rfl
  | cons branch branches ih =>
    obtain ⟨⟨-, hbranch⟩, hbranches⟩ := List.forall_mem_cons.mp h
    rw [List.map_cons, List.foldl_cons, List.foldl_cons, runs_guardedItems,
      commonRuns_guardedRuns hshared (looksAhead_of_mem_runs hbranch)]
    refine ih (fun run hrun => hshared run ?_) hbranches
    exact (commonRuns_prefix_left ..).subset hrun

/-- The items of runs, where guards look ahead. -/
theorem flatten_guardedRuns {runs : List (List Regex)}
    (h : ∀ run ∈ runs, run.length = 1 ∨ ∀ item ∈ run, item.isPlain = true) :
    (guardedRuns runs).flatten = guardedItems runs.flatten := by
  induction runs with
  | nil => rfl
  | cons run runs ih =>
    obtain ⟨hrun, hruns⟩ := List.forall_mem_cons.mp h
    rw [guardedRuns_cons, List.flatten_append, ih hruns, List.flatten_cons, guardedItems_append]
    congr 1
    by_cases hguard : run = [guardItem]
    · subst hguard
      rfl
    · -- A guard is no plain item, so it stands in no longer run.
      have hne : ∀ item ∈ run, item ≠ guardItem := by
        rintro item hitem rfl
        rcases hrun with hlength | hplain
        · obtain ⟨single, rfl⟩ := List.length_eq_one_iff.mp hlength
          exact hguard (congrArg (fun item => [item]) (List.mem_singleton.mp hitem).symm)
        · exact absurd (hplain _ hitem) (by decide)
      rw [guardedRun_of_ne hguard, List.flatten_singleton, guardedItems_of_forall_ne hne]

theorem guardedRun_ne_nil (run : List Regex) : guardedRun run ≠ [] := by
  rw [guardedRun]
  split <;> simp [aheadItems]

/-- A branch is one run only where guards look ahead if it is one run only. -/
theorem one_lt_length_runs_guardedItems (h : branch ≠ [guardItem]) :
    1 < (runs (guardedItems branch)).length ↔ 1 < (runs branch).length := by
  have hflatten := flatten_runs branch
  rw [runs_guardedItems]
  match hruns : runs branch with
  | [] => exact Iff.rfl
  | [run] =>
    have hrun : run ≠ [guardItem] := by
      rw [hruns, List.flatten_singleton] at hflatten
      rwa [hflatten]
    rw [guardedRuns_cons, guardedRun_of_ne hrun]
    exact Iff.rfl
  | first :: second :: others =>
    have hfirst := List.length_pos_iff.mpr (guardedRun_ne_nil first)
    have hsecond := List.length_pos_iff.mpr (guardedRun_ne_nil second)
    simp only [guardedRuns_cons, List.length_append, List.length_cons]
    omega

/-- What branches share where guards look ahead. -/
theorem sharedItems_guardedItems (h : Shareable branches) :
    sharedItems (branches.map guardedItems) = guardedItems (sharedItems branches) := by
  match branches with
  | [] | [_] => rfl
  | first :: second :: others =>
    -- Nothing is shared unless each branch has two runs at least, and guards do not change that.
    have hlong : ((first :: second :: others).map guardedItems).all
        (fun branch => (runs branch).length > 1) =
          (first :: second :: others).all fun branch => (runs branch).length > 1 := by
      rw [Bool.eq_iff_iff, List.all_map, List.all_eq_true, List.all_eq_true]
      refine forall₂_congr fun branch hbranch => ?_
      rw [Function.comp_apply, decide_eq_true_iff, decide_eq_true_iff]
      exact one_lt_length_runs_guardedItems (h branch hbranch).1
    obtain ⟨⟨-, hfirst⟩, hothers⟩ := List.forall_mem_cons.mp h
    have hshared := foldl_commonRuns_guardedRuns (looksAhead_of_mem_runs hfirst) hothers
    rw [List.map_cons, List.map_cons] at hlong
    rw [List.map_cons, List.map_cons, sharedItems, sharedItems, hlong]
    split
    · rw [runs_guardedItems, ← List.map_cons, hshared]
      refine flatten_guardedRuns fun run hrun => ?_
      obtain ⟨hshorter, -⟩ := foldl_commonRuns_prefix (runs first) (second :: others)
      exact (length_or_isPlain_of_mem_runs (hshorter.subset hrun)).2
    · rfl

theorem share_of_nil (h : sharedItems branches = []) : share branches = branches := by
  rw [share, h]

theorem share_of_ne_nil (h : sharedItems branches ≠ []) :
    share branches = [sharedItems branches ++ [ofBranches (branches.flatMap fun branch =>
      opened (branch.drop (sharedItems branches).length))]] := by
  rw [share]
  split
  · next heq => exact absurd heq h
  · next item others heq => rw [heq]

/-- What is left of branches that share something is a choice between two branches at least. -/
theorem ofBranches_flatMap_opened_ne_guardItem (h : sharedItems branches ≠ [])
    (left : List Regex → List Regex) :
    ofBranches (branches.flatMap fun branch => opened (left branch)) ≠ guardItem := by
  obtain ⟨first, second, others, rfl⟩ := exists_cons_cons_of_sharedItems h
  obtain ⟨head, next, more, heq⟩ :=
    exists_flatMap_eq (fun branch => opened_ne_nil (left branch)) first second others
  rw [heq]
  exact ofBranches_ne_guardItem head next more

/-- Sharing where guards look ahead. -/
theorem share_guardedItems (h : Shareable branches) :
    share (branches.map guardedItems) = (share branches).map guardedItems := by
  have hshared := sharedItems_guardedItems h
  by_cases hnil : sharedItems branches = []
  · rw [share_of_nil hnil, share_of_nil (hshared.trans (congrArg guardedItems hnil))]
  · -- What is shared is moved to the front, and each branch keeps what it has behind it.
    have hne : sharedItems (branches.map guardedItems) ≠ [] := by
      obtain ⟨item, others, hitems⟩ := List.exists_cons_of_ne_nil hnil
      rw [hshared, hitems, guardedItems_cons]
      exact List.append_ne_nil_of_left_ne_nil (guardedItem_ne_nil item) _
    have hleft : (branches.map guardedItems).flatMap
        (fun branch => opened (branch.drop (sharedItems (branches.map guardedItems)).length)) =
          (branches.flatMap fun branch =>
            opened (branch.drop (sharedItems branches).length)).map guardedItems := by
      rw [List.flatMap_map, List.map_flatMap, List.flatMap_def, List.flatMap_def]
      congr 1
      refine List.map_congr_left fun branch hbranch => ?_
      have hbegins := sharedItems_prefix hbranch
      rw [hshared, ← opened_guardedItems, guardedItems_drop hbegins]
    rw [share_of_ne_nil hne, share_of_ne_nil hnil, hleft, hshared, List.map_singleton,
      guardedItems_append,
      guardedItems_singleton (ofBranches_flatMap_opened_ne_guardItem hnil _), guarded_ofBranches]

end Runs

section Factored

variable {control regex : Regex} {mode next : Mode} {branches : List (List Regex)}

/-- A guard leads to the newline of its record. -/
theorem Leads.eq_closing_of_guardItem (h : Leads control guardItem mode next) :
    next = .closing := by
  cases h with
  | rest => rfl
  | optional _ hbody => exact absurd hbody (not_leads_restBody (Or.inl rfl))

theorem Leads.looksAhead_eq (hcontrol : control.looksAhead = false)
    (h : Leads control regex mode next) : regex.looksAhead = false := by
  induction h with
  | empty | chars | lineStart | line => rfl
  | rest hbody => rcases hbody with rfl | rfl <;> rfl
  | skip => exact hcontrol
  | group _ _ _ ih | optional _ _ ih | zeroOrMore _ _ ih => exact ih
  | oneOrMore _ _ _ _ ih => exact ih
  | cat _ _ _ ihfirst ihrest | alt _ _ _ _ ihfirst ihrest =>
    rw [looksAhead, ihfirst, ihrest, Bool.or_false]

theorem readsNothing_lookingAhead (regex : Regex) :
    regex.lookingAhead.readsNothing = regex.readsNothing := by
  induction regex with
  | loop times greedy body ih =>
    rw [lookingAhead]
    split
    · next h => rcases h with h | h <;> rw [h] <;> rfl
    · exact ih
  | group captures body ih => exact ih
  | cat first rest ihfirst ihrest | alt first rest ihfirst ihrest =>
    rw [lookingAhead, readsNothing, readsNothing, ihfirst, ihrest]
  | empty | chars | lineStart | notAhead => rfl

theorem ItemsLead.looksAhead_eq {items : List Regex} (hcontrol : control.looksAhead = false)
    (h : ItemsLead control items mode next) : ∀ item ∈ items, item.looksAhead = false := by
  induction items generalizing mode with
  | nil => exact fun _ hitem => absurd hitem List.not_mem_nil
  | cons item items ih =>
    obtain ⟨middle, hitem, hitems⟩ := h
    exact List.forall_mem_cons.mpr ⟨hitem.looksAhead_eq hcontrol, ih hitems⟩

/-- What is shared in the form that is matched is shared alike where guards look ahead. -/
theorem Keeps.share_guardedItems (h : Keeps branches mode next) :
    Regex.share (branches.map guardedItems) = (Regex.share branches).map guardedItems := by
  by_cases hclosed : mode.isOpen = false ∨ next.isOpen = false
  · -- Where a record is being closed there is one branch, which shares nothing.
    obtain ⟨branch, rfl⟩ := h.eq_singleton hclosed
    rfl
  · apply Regex.share_guardedItems
    intro branch hbranch
    have hleads := (h.leads branch hbranch).1
    constructor
    · rintro rfl
      obtain ⟨middle, hguard, rfl⟩ := hleads
      obtain rfl := hguard.eq_closing_of_guardItem
      exact hclosed (Or.inr rfl)
    · exact hleads.looksAhead_eq rfl

/-- A loop whose body leads back to where it began is no guard. -/
theorem loop_ne_guardItem {times : Repeat} {greedy : Bool} {body : Regex}
    (h : Leads control body mode next) : loop times greedy body ≠ guardItem := by
  intro heq
  obtain ⟨-, -, rfl⟩ := Regex.loop.inj heq
  exact not_leads_restBody (Or.inl rfl) h

private theorem lookingAhead_loop {times : Repeat} {greedy : Bool} {body : Regex}
    (h : Leads control body mode next) :
    (loop times greedy body).lookingAhead = loop times greedy body.lookingAhead := by
  rw [lookingAhead, if_neg]
  rintro (heq | heq)
  · obtain ⟨-, -, rfl⟩ := Regex.loop.inj heq
    exact not_leads_restBody (Or.inr rfl) h
  · exact loop_ne_guardItem h heq

/-- The branches of a loop where guards look ahead. -/
private theorem loopBranches_guardedItems {times : Repeat} {greedy reads : Bool}
    (hleads : Leads control (ofBranches branches) mode next) :
    loopBranches times greedy reads (branches.map guardedItems) =
      (loopBranches times greedy reads branches).map guardedItems := by
  have hloop : ∀ times : Repeat, [[loop times greedy (ofBranches (branches.map guardedItems))]] =
      [[loop times greedy (ofBranches branches)]].map guardedItems := by
    intro times
    have hne : loop times greedy (ofBranches branches) ≠ guardItem := loop_ne_guardItem hleads
    rw [List.map_singleton, guardedItems_singleton hne, guarded_loop hne, guarded_ofBranches]
  cases reads with
  | false => exact hloop times
  | true =>
    cases times with
    | oneOrMore => rfl
    | optional | zeroOrMore => exact hloop .optional

/-- The branches of a loop that looks ahead, given those of its body. -/
private theorem factoredBranches_loop_lookingAhead {times : Repeat} {greedy : Bool} {body : Regex}
    (h : Leads Record.controlItem body mode next) (hmode : mode.isOpen = true)
    (hnext : next.isOpen = true)
    (hbody : body.lookingAhead.factoredBranches = body.factoredBranches.map guardedItems) :
    (loop times greedy body).lookingAhead.factoredBranches =
      (loop times greedy body).factoredBranches.map guardedItems := by
  have hleads := leads_ofBranches h.keeps.share.leads
    (share_ne_nil (factoredBranches_ne_nil body)) hmode hnext
  rw [lookingAhead_loop h, factoredBranches, factoredBranches, readsNothing_lookingAhead, hbody,
    h.keeps.share_guardedItems, loopBranches_guardedItems hleads]

/-- The branches of an expression that looks ahead. -/
theorem Leads.factoredBranches_lookingAhead (h : Leads Record.controlItem regex mode next) :
    regex.lookingAhead.factoredBranches = regex.factoredBranches.map guardedItems := by
  have hne := fun regex : Regex => share_ne_nil (factoredBranches_ne_nil regex)
  induction h with
  | empty | chars | lineStart | line | skip => rfl
  | rest hbody => rcases hbody with rfl | rfl <;> rfl
  | @group captures body _ _ _ _ hbody ih =>
    have hshare := hbody.keeps.share_guardedItems
    cases captures with
    | false => rw [lookingAhead, factoredBranches, factoredBranches, ih, hshare]
    | true =>
      rw [lookingAhead, factoredBranches, factoredBranches, ih, hshare, ← guarded_ofBranches]
      rfl
  | optional hmode hbody ih | zeroOrMore hmode hbody ih =>
    exact factoredBranches_loop_lookingAhead hbody hmode hmode ih
  | oneOrMore hmode hnext hfirst _ ih _ =>
    exact factoredBranches_loop_lookingAhead hfirst hmode hnext ih
  | @cat first rest _ _ _ _ hfirst hrest ihfirst ihrest =>
    rw [lookingAhead, factoredBranches, factoredBranches, ihfirst, ihrest,
      hfirst.keeps.share_guardedItems, hrest.keeps.share_guardedItems,
      closed_guardedItems (hne first), closed_guardedItems (hne rest), ← guardedItems_append,
      opened_guardedItems]
  | alt _ _ _ _ ihfirst ihrest =>
    rw [lookingAhead, factoredBranches, factoredBranches, ihfirst, ihrest, List.map_append]

/-- The form in which an expression that looks ahead is matched. -/
theorem Leads.factored_lookingAhead (h : Leads Record.controlItem regex mode next) :
    regex.lookingAhead.factored = regex.factored.guarded := by
  rw [Regex.factored, Regex.factored, h.factoredBranches_lookingAhead, h.keeps.share_guardedItems,
    guarded_ofBranches]

end Factored

end Regex

end MotifSearch
