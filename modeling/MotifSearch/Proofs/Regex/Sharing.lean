import MotifSearch.Regex.Shared

/-!
# What branches share is all they share

The items that are moved to the front of a choice are as many as possible: where branches that share
something all go on with the same item, and that item neither captures nor is a plain character
before another one, the item is shared as well.

## Main definitions

* `Regex.JoinsRun` — an item is taken together with the one after it

## Main results

* `prefix_commonRuns` — what two branches begin with is the longest such beginning
* `exists_branch_not_going_on` — some branch does not go on with the same item as the others
-/

namespace MotifSearch.Regex

variable {items rest : List Regex} {run : List Regex} {item : Regex}
variable {shared first second : List (List Regex)}

/-- Whether an item is taken together with the first one of the items after it. -/
def JoinsRun (item : Regex) (rest : List Regex) : Prop :=
  item.isPlain = true ∧ ∃ other ∈ rest.head?, other.isPlain = true

/-- Only plain characters are taken together. -/
theorem length_or_isPlain_of_mem_runs (h : run ∈ runs items) :
    run ≠ [] ∧ (run.length = 1 ∨ ∀ item ∈ run, item.isPlain = true) := by
  induction items generalizing run with
  | nil => cases h
  | cons item items ih =>
    rw [runs] at h
    split at h
    · obtain rfl := List.mem_singleton.mp h
      exact ⟨by simp, Or.inl rfl⟩
    · next next others hruns =>
      have hothers : ∀ run ∈ others, run ∈ runs items := fun run hrun =>
        hruns ▸ List.mem_cons_of_mem next hrun
      split at h
      · next hplain =>
        -- A plain item joins a run that has one; by induction all of that run are plain.
        rw [Bool.and_eq_true] at hplain
        rcases List.mem_cons.mp h with rfl | h
        · refine ⟨by simp, Or.inr ?_⟩
          have hnext := ih (hruns ▸ List.mem_cons_self)
          have hall : ∀ item ∈ next, item.isPlain = true := by
            rcases hnext.2 with hlength | hall
            · obtain ⟨single, rfl⟩ := List.length_eq_one_iff.mp hlength
              simpa using hplain.2
            · exact hall
          intro other hother
          rcases List.mem_cons.mp hother with rfl | hother
          · exact hplain.1
          · exact hall other hother
        · exact ih (hothers run h)
      · rcases List.mem_cons.mp h with rfl | h
        · exact ⟨by simp, Or.inl rfl⟩
        · exact ih (hruns ▸ h)

/-- An item that is not taken together with the next one is a run by itself. -/
theorem append_prefix_runs (hshared : shared <+: runs (shared.flatten ++ item :: rest))
    (hjoins : ¬ JoinsRun item rest) :
    shared ++ [[item]] <+: runs (shared.flatten ++ item :: rest) := by
  obtain ⟨others, hothers⟩ := hshared
  have hflatten : others.flatten = item :: rest := by
    have hall := flatten_runs (shared.flatten ++ item :: rest)
    rw [← hothers, List.flatten_append] at hall
    exact List.append_cancel_left hall
  cases others with
  | nil => cases hflatten
  | cons run others =>
    have hmem : run ∈ runs (shared.flatten ++ item :: rest) := by
      rw [← hothers]
      exact List.mem_append_right _ List.mem_cons_self
    obtain ⟨hne, hrun⟩ := length_or_isPlain_of_mem_runs hmem
    match run, hne with
    | [head], _ =>
      obtain ⟨rfl, -⟩ := List.cons.inj hflatten
      exact ⟨others, by rw [← hothers, List.append_assoc, List.singleton_append]⟩
    | head :: other :: tail, _ =>
      -- The run does not go on after the item, since all of a longer run are plain characters.
      obtain ⟨rfl, rfl⟩ := List.cons.inj hflatten
      have hall := hrun.resolve_left (by simp)
      exact absurd ⟨hall head (by simp), other, rfl, hall other (by simp)⟩ hjoins

theorem captures_of_mem_commonRuns (h : run ∈ commonRuns first second) :
    run.any captures = false := by
  fun_induction commonRuns first second with
  | case1 head runs other others hhead ih =>
    rcases List.mem_cons.mp h with rfl | h
    · exact hhead.2
    · exact ih h
  | case2 => cases h
  | case3 => cases h

/-- What two branches begin with is as long as possible. -/
theorem prefix_commonRuns (hfirst : shared <+: first) (hsecond : shared <+: second)
    (hcaptures : ∀ run ∈ shared, run.any captures = false) :
    shared <+: commonRuns first second := by
  induction shared generalizing first second with
  | nil => exact List.nil_prefix
  | cons run shared ih =>
    obtain ⟨first, rfl⟩ := hfirst
    obtain ⟨second, rfl⟩ := hsecond
    have hrest := ih (List.prefix_append shared first) (List.prefix_append shared second)
      fun other hother => hcaptures other (List.mem_cons_of_mem run hother)
    have hrun := hcaptures run List.mem_cons_self
    rw [List.cons_append, List.cons_append, commonRuns, if_pos ⟨rfl, hrun⟩]
    exact List.cons_prefix_cons.mpr ⟨rfl, hrest⟩

private theorem prefix_foldl_commonRuns {branches : List (List Regex)} (hfirst : shared <+: first)
    (hbranches : ∀ branch ∈ branches, shared <+: runs branch)
    (hcaptures : ∀ run ∈ shared, run.any captures = false) :
    shared <+: branches.foldl (fun all branch => commonRuns all (runs branch)) first := by
  induction branches generalizing first with
  | nil => exact hfirst
  | cons branch branches ih =>
    have hbranch := hbranches branch List.mem_cons_self
    exact ih (prefix_commonRuns hfirst hbranch hcaptures)
      fun other hother => hbranches other (List.mem_cons_of_mem branch hother)

/-- Only a choice between several branches shares anything. -/
theorem exists_cons_cons_of_sharedItems {branches : List (List Regex)}
    (h : sharedItems branches ≠ []) :
    ∃ first second others, branches = first :: second :: others := by
  match branches with
  | [] | [_] => exact absurd rfl h
  | first :: second :: others => exact ⟨first, second, others, rfl⟩

/-- What several branches share is part of what the first two of them begin with. -/
private theorem foldl_commonRuns_isPrefix (first second : List Regex)
    (others : List (List Regex)) :
    (second :: others).foldl (fun all branch => commonRuns all (runs branch)) (runs first) <+:
      commonRuns (runs first) (runs second) := by
  obtain ⟨hcommon, -⟩ := foldl_commonRuns_prefix (commonRuns (runs first) (runs second)) others
  exact hcommon

/-- Nothing that captures is shared. -/
theorem captures_of_mem_sharedItems {branches : List (List Regex)}
    (h : item ∈ sharedItems branches) : item.captures = false := by
  obtain ⟨first, second, others, rfl⟩ := exists_cons_cons_of_sharedItems (List.ne_nil_of_mem h)
  rw [sharedItems] at h
  split at h
  · obtain ⟨run, hrun, hitem⟩ := List.mem_flatten.mp h
    have hcommon := (foldl_commonRuns_isPrefix first second others).subset hrun
    have hcaptures := captures_of_mem_commonRuns hcommon
    rw [List.any_eq_false] at hcaptures
    exact Bool.eq_false_iff.mpr (hcaptures item hitem)
  · cases h

/-- Branches that share something do not all go on with the same item. -/
theorem exists_branch_not_going_on {branches : List (List Regex)} (h : sharedItems branches ≠ [])
    (hcaptures : item.captures = false) :
    ¬ ∀ branch ∈ branches,
      ∃ rest, branch = sharedItems branches ++ item :: rest ∧ ¬ JoinsRun item rest := by
  -- Otherwise that item could be shared as well, and more were shared than is shared.
  intro hall
  obtain ⟨first, second, others, rfl⟩ := exists_cons_cons_of_sharedItems h
  · rw [sharedItems] at h
    split at h
    · next hlong =>
      rw [sharedItems, if_pos hlong] at hall
      obtain ⟨hfirst, hothers⟩ := foldl_commonRuns_prefix (runs first) (second :: others)
      generalize hshared : (second :: others).foldl
        (fun all branch => commonRuns all (runs branch)) (runs first) = shared at *
      have hruns : ∀ branch ∈ first :: second :: others, shared ++ [[item]] <+: runs branch := by
        intro branch hbranch
        obtain ⟨rest, hrest, hjoins⟩ := hall branch hbranch
        have hbegins : shared <+: runs branch := by
          rcases List.mem_cons.mp hbranch with rfl | hbranch
          · exact hfirst
          · exact hothers branch hbranch
        rw [hrest] at hbegins ⊢
        exact append_prefix_runs hbegins hjoins
      have hcapturesShared : ∀ run ∈ shared ++ [[item]], run.any captures = false := by
        intro run hrun
        rcases List.mem_append.mp hrun with hrun | hrun
        · have hcommon := foldl_commonRuns_isPrefix first second others
          rw [hshared] at hcommon
          exact captures_of_mem_commonRuns (hcommon.subset hrun)
        · obtain rfl := List.mem_singleton.mp hrun
          simpa using hcaptures
      have hlonger : shared ++ [[item]] <+: shared := by
        have hfold := prefix_foldl_commonRuns (hruns first List.mem_cons_self)
          (fun branch hbranch => hruns branch (List.mem_cons_of_mem first hbranch)) hcapturesShared
        rwa [hshared] at hfold
      have hlength := hlonger.length_le
      rw [List.length_append, List.length_singleton] at hlength
      omega
    · exact h rfl

end MotifSearch.Regex
