import MotifSearch.Regex.Basic

/-!
# Shared beginnings of branches

Before an expression is matched, it is brought into another form: where the branches of a choice all
begin alike, the items that they share come first, and the choice is made after them. Both forms
match the same texts. They can differ in the match they prefer, because the ways in which the shared
items can match come first now, and the order of the branches second: in `xzy`, `x[yz]*z|x[yz]*`
matches `xz`, because its first branch can match, but `x[yz]*(?:z|)` matches all of the text.

Not everything that looks alike is shared. Plain characters that follow each other are one item, so
that `xy` and `xz` share nothing; a branch of one item only shares nothing either; and two items
that capture are never the same. Brackets that do not capture serve to write an expression down and
are left out of the form, and so are the further iterations of a loop that reads nothing.

## Main definitions

* `Regex.runs` — the items of a branch, plain characters taken together
* `Regex.sharedItems` — what all branches of a choice begin with
* `Regex.factored` — the form that is matched

## Main results

* `flatten_runs` — taking plain characters together loses nothing
* `sharedItems_prefix` — each branch begins with what all branches share
-/

namespace MotifSearch.Regex

/-- Whether an expression captures part of what it matches. -/
def captures : Regex → Bool
  | empty | chars _ | lineStart | notAhead _ => false
  | group capturing body => capturing || body.captures
  | loop _ _ body => body.captures
  | cat first rest | alt first rest => first.captures || rest.captures

/-- Whether an expression is a plain character. -/
def isPlain : Regex → Bool
  | chars (.single _) => true
  | _ => false

/-- The items of a branch, where plain characters that follow each other are taken together. -/
def runs : List Regex → List (List Regex)
  | [] => []
  | item :: items =>
    match runs items with
    | [] => [[item]]
    | run :: others =>
      if item.isPlain && run.any isPlain then (item :: run) :: others
      else [item] :: run :: others

@[simp] theorem flatten_runs (items : List Regex) : (runs items).flatten = items := by
  induction items with
  | nil => rfl
  | cons item items ih =>
    rw [runs]
    split
    · next h =>
      rw [h] at ih
      simp_all
    · next run others h =>
      rw [h] at ih
      split <;> simp_all

/-- What two branches begin with, given as runs. -/
def commonRuns : List (List Regex) → List (List Regex) → List (List Regex)
  | run :: runs, other :: others =>
    if run = other ∧ run.any captures = false then run :: commonRuns runs others else []
  | _, _ => []

theorem commonRuns_prefix_left (first second : List (List Regex)) :
    commonRuns first second <+: first := by
  fun_induction commonRuns first second with
  | case1 run runs other others _ ih => exact List.cons_prefix_cons.2 ⟨rfl, ih⟩
  | case2 => exact List.nil_prefix
  | case3 => exact List.nil_prefix

theorem commonRuns_prefix_right (first second : List (List Regex)) :
    commonRuns first second <+: second := by
  fun_induction commonRuns first second with
  | case1 run runs other others h ih => exact List.cons_prefix_cons.2 ⟨h.1, ih⟩
  | case2 => exact List.nil_prefix
  | case3 => exact List.nil_prefix

/-- The items that all branches of a choice begin with, unless some branch is one run only. -/
def sharedItems : List (List Regex) → List Regex
  | first :: second :: others =>
    if (first :: second :: others).all fun branch => (runs branch).length > 1 then
      ((second :: others).foldl (fun shared branch => commonRuns shared (runs branch))
        (runs first)).flatten
    else []
  | _ => []

@[simp] theorem sharedItems_singleton (branch : List Regex) : sharedItems [branch] = [] := rfl

theorem foldl_commonRuns_prefix (shared : List (List Regex)) (branches : List (List Regex)) :
    let all := branches.foldl (fun shared branch => commonRuns shared (runs branch)) shared
    all <+: shared ∧ ∀ branch ∈ branches, all <+: runs branch := by
  induction branches generalizing shared with
  | nil => exact ⟨List.prefix_rfl, by simp⟩
  | cons branch branches ih =>
    obtain ⟨hshared, hbranches⟩ := ih (commonRuns shared (runs branch))
    refine ⟨hshared.trans (commonRuns_prefix_left ..), ?_⟩
    intro other hother
    rcases List.mem_cons.1 hother with rfl | hother
    · exact hshared.trans (commonRuns_prefix_right ..)
    · exact hbranches other hother

private theorem flatten_prefix {first second : List (List Regex)} (h : first <+: second) :
    first.flatten <+: second.flatten := by
  obtain ⟨left, rfl⟩ := h
  simp

theorem sharedItems_prefix {branches : List (List Regex)} {branch : List Regex}
    (h : branch ∈ branches) : sharedItems branches <+: branch := by
  match branches, h with
  | [_], _ => exact List.nil_prefix
  | first :: second :: others, h =>
    rw [sharedItems]
    split
    · obtain ⟨hfirst, hothers⟩ := foldl_commonRuns_prefix (runs first) (second :: others)
      rw [← flatten_runs branch]
      apply flatten_prefix
      rcases List.mem_cons.1 h with rfl | h
      · exact hfirst
      · exact hothers branch h
    · exact List.nil_prefix

/-- The choice between branches, each given by its items. -/
def ofBranches (branches : List (List Regex)) : Regex :=
  alternatives (branches.map concat)

/-- The items of a sequence. -/
def items : Regex → List Regex
  | empty => []
  | cat first rest => first :: rest.items
  | item => [item]

/-- The branches of a choice, each given by its items. -/
def branches : Regex → List (List Regex)
  | alt first rest => first.items :: rest.branches
  | branch => [branch.items]

/-- The branches that a sequence of items stands for: those of a choice, if the choice is all there
is, and a single one otherwise. -/
def opened : List Regex → List (List Regex)
  | [item] => item.branches
  | items => [items]

/-- The items that a choice stands for: those of its branch, if there is only one, and the choice
itself otherwise. -/
def closed : List (List Regex) → List Regex
  | [branch] => branch
  | branches => [ofBranches branches]

/-- Move what all branches of a choice begin with to the front of the choice. -/
def share (branches : List (List Regex)) : List (List Regex) :=
  match sharedItems branches with
  | [] => branches
  | item :: others =>
    let shared := item :: others
    [shared ++ [ofBranches (branches.flatMap fun branch => opened (branch.drop shared.length))]]

@[simp] theorem share_singleton (branch : List Regex) : share [branch] = [branch] := rfl

/-- Whether all that an expression can match is the empty text. -/
def readsNothing : Regex → Bool
  | empty | lineStart | notAhead _ => true
  | chars _ => false
  | group _ body | loop _ _ body => body.readsNothing
  | cat first rest | alt first rest => first.readsNothing && rest.readsNothing

/-- The branches of a loop, given those of its body. A second iteration would add nothing to a first
one that reads nothing, so there is one at most in that case. -/
def loopBranches (times : Repeat) (greedy readsNothing : Bool) (body : List (List Regex)) :
    List (List Regex) :=
  match readsNothing, times with
  | true, .oneOrMore => body
  | true, _ => [[loop .optional greedy (ofBranches body)]]
  | false, times => [[loop times greedy (ofBranches body)]]

/-- The branches of the form in which an expression is matched, before what they share has been
moved to the front. -/
def factoredBranches : Regex → List (List Regex)
  | empty => [[]]
  | chars set => [[chars set]]
  | lineStart => [[lineStart]]
  | notAhead set => [[notAhead set]]
  | group false body => share body.factoredBranches
  | group true body => [[group true (ofBranches (share body.factoredBranches))]]
  | loop times greedy body =>
    loopBranches times greedy body.readsNothing (share body.factoredBranches)
  | cat first rest =>
    opened (closed (share first.factoredBranches) ++ closed (share rest.factoredBranches))
  | alt first rest => first.factoredBranches ++ rest.factoredBranches

/-- The form in which an expression is matched: what all branches of a choice begin with is in front
of the choice. -/
def factored (regex : Regex) : Regex :=
  ofBranches (share regex.factoredBranches)

end MotifSearch.Regex
