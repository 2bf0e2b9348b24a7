import MotifSearch.Proofs.Pattern.NoteText

/-!
# What the canonical text tells of a pattern

The canonical text of a pattern tells the pattern, but for two things that it shows as others: the
denominator zero looks like a breve, and a choice without branches like a choice of one branch that
is empty. Neither makes a difference to the match expression or to what is reported.

A node ends with its closing bracket, and a note where a blank or the closing bracket of the node
around it follows. So a pattern and what follows it can be told apart.

## Main definitions

* `Pattern.shown` — the pattern that the canonical text shows
* `Pattern.IsProper` — there are no denominators of zero, and no choices without branches

## Main results

* `shown_eq_of_canonical_eq` — the text of a pattern tells the pattern
* `compile_eq_of_canonical_eq` — patterns with the same text compile to the same
* `shown_eq_self` — a proper pattern is shown as it is
-/

namespace MotifSearch

open Text (decimal eq_and_eq_of_append_eq)

namespace Bounds

private theorem isDigit_or_eq_of_mem_boundText {bound : Option UInt32} {c : Char}
    (h : c ∈ boundText bound) : (c.isDigit || c == '-') = true := by
  cases bound with
  | none =>
    obtain rfl := List.mem_singleton.mp h
    rfl
  | some n => rw [Text.isDigit_of_mem_decimal h, Bool.true_or]

private theorem boundText_injective {bound other : Option UInt32}
    (h : boundText bound = boundText other) : bound = other := by
  have hsign : ∀ n : UInt32, ['-'] ≠ boundText (some n) := by
    intro n heq
    obtain ⟨c, digits, hcons, hdigit⟩ := Text.exists_digit_cons_decimal n.toNat
    rw [boundText, hcons] at heq
    rw [← (List.cons.inj heq).1] at hdigit
    cases hdigit
  rcases bound with _ | n <;> rcases other with _ | m
  · rfl
  · exact absurd h (hsign m)
  · exact absurd h.symm (hsign n)
  · rw [UInt32.toNat_inj.mp (Text.decimal_injective h)]

/-- Bounds end with a brace. -/
theorem eq_and_eq_of_canonical_append {bounds other : Bounds} {rest others : List Char}
    (h : bounds.canonical ++ rest = other.canonical ++ others) :
    bounds = other ∧ rest = others := by
  obtain ⟨min, max⟩ := bounds
  obtain ⟨otherMin, otherMax⟩ := other
  have hstop : ∀ stop : Char, (stop.isDigit || stop == '-') = false → ∀ text : List Char,
      ∀ c ∈ (stop :: text).head?, (c.isDigit || c == '-') = false := by
    intro stop hstop text c hc
    obtain rfl := Option.some.inj hc
    exact hstop
  simp only [canonical, List.append_assoc, List.cons_append, List.nil_append] at h
  obtain ⟨hmin, hcomma⟩ := eq_and_eq_of_append_eq (fun c hc => isDigit_or_eq_of_mem_boundText hc)
    (fun c hc => isDigit_or_eq_of_mem_boundText hc) (hstop ',' rfl _) (hstop ',' rfl _)
    (List.cons.inj h).2
  obtain ⟨hmax, hbrace⟩ := eq_and_eq_of_append_eq (fun c hc => isDigit_or_eq_of_mem_boundText hc)
    (fun c hc => isDigit_or_eq_of_mem_boundText hc) (hstop '\x7d' rfl _) (hstop '\x7d' rfl _)
    (List.cons.inj hcomma).2
  obtain rfl := boundText_injective hmin
  obtain rfl := boundText_injective hmax
  exact ⟨rfl, (List.cons.inj hbrace).2⟩

end Bounds

namespace Pattern

/-- What the branches of a choice are shown as: no branches look like one that is empty. -/
def shownChoice {α : Type} : List (List α) → List (List α)
  | [] => [[]]
  | branches => branches

mutual

/-- The pattern that the text of a pattern shows. -/
def shown : Pattern → Pattern
  | note spec => note spec.shown
  | sequence children => sequence (shownChildren children)
  | alternation branches => alternation (shownChoice (shownBranches branches))
  | group children bounds => group (shownChildren children) bounds

def shownChildren : List Pattern → List Pattern
  | [] => []
  | child :: children => child.shown :: shownChildren children

def shownBranches : List (List Pattern) → List (List Pattern)
  | [] => []
  | branch :: branches => shownChildren branch :: shownBranches branches

end

mutual

/-- The match expression of the pattern that is shown is the same. -/
@[simp] theorem expression_shown : (pattern : Pattern) →
    pattern.shown.expression = pattern.expression
  | note spec => spec.expression_shown
  | sequence children => sequenceExpression_shownChildren children
  | alternation [] => rfl
  | alternation (branch :: branches) => branchesExpression_shownBranches (branch :: branches)
  | group children bounds => by
    simp only [shown, expression, sequenceExpression_shownChildren children]

theorem sequenceExpression_shownChildren : (children : List Pattern) →
    sequenceExpression (shownChildren children) = sequenceExpression children
  | [] => rfl
  | child :: children => by
    rw [shownChildren, sequenceExpression, sequenceExpression, expression_shown child,
      sequenceExpression_shownChildren children]

theorem branchesExpression_shownBranches : (branches : List (List Pattern)) →
    branchesExpression (shownBranches branches) = branchesExpression branches
  | [] => rfl
  | [branch] => sequenceExpression_shownChildren branch
  | branch :: next :: branches => by
    have hbranches := branchesExpression_shownBranches (next :: branches)
    simp only [shownBranches, branchesExpression, sequenceExpression_shownChildren branch] at *
    rw [hbranches]

end

mutual

/-- The fallbacks in the pattern that is shown are the same. -/
@[simp] theorem fallbacks_shown : (pattern : Pattern) → pattern.shown.fallbacks = pattern.fallbacks
  | note spec => spec.fallbacks_shown
  | sequence children => sequenceFallbacks_shownChildren children
  | alternation [] => rfl
  | alternation (branch :: branches) => branchesFallbacks_shownBranches (branch :: branches)
  | group children bounds => by
    simp only [shown, fallbacks, sequenceFallbacks_shownChildren children]

theorem sequenceFallbacks_shownChildren : (children : List Pattern) →
    sequenceFallbacks (shownChildren children) = sequenceFallbacks children
  | [] => rfl
  | child :: children => by
    rw [shownChildren, sequenceFallbacks, sequenceFallbacks, fallbacks_shown child,
      sequenceFallbacks_shownChildren children]

theorem branchesFallbacks_shownBranches : (branches : List (List Pattern)) →
    branchesFallbacks (shownBranches branches) = branchesFallbacks branches
  | [] => rfl
  | branch :: branches => by
    rw [shownBranches, branchesFallbacks, branchesFallbacks, sequenceFallbacks_shownChildren branch,
      branchesFallbacks_shownBranches branches]

end

mutual

/-- There are no denominators of zero in a pattern, and no choices without branches. -/
def IsProper : Pattern → Prop
  | note spec => spec.IsProper
  | sequence children => AllProper children
  | alternation branches => branches ≠ [] ∧ AllBranchesProper branches
  | group children _ => AllProper children

def AllProper : List Pattern → Prop
  | [] => True
  | child :: children => child.IsProper ∧ AllProper children

def AllBranchesProper : List (List Pattern) → Prop
  | [] => True
  | branch :: branches => AllProper branch ∧ AllBranchesProper branches

end

mutual

/-- A proper pattern is shown as it is. -/
theorem shown_eq_self : (pattern : Pattern) → pattern.IsProper → pattern.shown = pattern
  | note _, h => by rw [shown, NotePattern.shown_eq_self h]
  | sequence children, h => by rw [shown, shownChildren_eq_self children h]
  | alternation [], h => absurd rfl h.1
  | alternation (branch :: branches), h => by
    rw [shown, shownBranches_eq_self (branch :: branches) h.2, shownChoice]
    simp
  | group children _, h => by rw [shown, shownChildren_eq_self children h]

theorem shownChildren_eq_self : (children : List Pattern) → AllProper children →
    shownChildren children = children
  | [], _ => rfl
  | child :: children, h => by
    rw [shownChildren, shown_eq_self child h.1, shownChildren_eq_self children h.2]

theorem shownBranches_eq_self : (branches : List (List Pattern)) → AllBranchesProper branches →
    shownBranches branches = branches
  | [], _ => rfl
  | branch :: branches, h => by
    rw [shownBranches, shownChildren_eq_self branch h.1, shownBranches_eq_self branches h.2]

end

/-- The text of children that follow another one. -/
private def followers (children : List Pattern) : List Char :=
  children.flatMap fun child => ' ' :: child.canonical

/-- The text of branches that follow another one. -/
private def furtherBranches (branches : List (List Pattern)) : List Char :=
  branches.flatMap fun branch => ' ' :: '|' :: ' ' :: spaced (childTexts branch)

private theorem spaced_nil : spaced (childTexts []) = [] :=
  rfl

private theorem spaced_cons (child : Pattern) (children : List Pattern) :
    spaced (childTexts (child :: children)) = child.canonical ++ followers children := by
  rw [spaced, childTexts_eq_map, List.map_cons]
  induction children generalizing child with
  | nil => simp [followers]
  | cons next children ih =>
    rw [List.map_cons, List.intercalate_cons_cons, ih]
    simp [followers]

private theorem intercalate_branchTexts (branch : List Pattern) (branches : List (List Pattern)) :
    [' ', '|', ' '].intercalate (branchTexts (branch :: branches)) =
      spaced (childTexts branch) ++ furtherBranches branches := by
  induction branches generalizing branch with
  | nil => simp [branchTexts, furtherBranches]
  | cons next branches ih =>
    rw [branchTexts, branchTexts, List.intercalate_cons_cons, ← branchTexts, ih]
    simp [furtherBranches]

/-- The characters that the text of a pattern begins with. -/
private def isOpening (c : Char) : Bool :=
  c.isDigit || c == '*' || c == '[' || c == '<' || c == '('

/-- The characters that follow a pattern. -/
private def isEnding (c : Char) : Bool :=
  c == ' ' || c == ']' || c == '>' || c == ')'

private theorem isOpening_eq_false_of_isEnding {c : Char} (h : isEnding c = true) :
    isOpening c = false := by
  simp only [isEnding, Bool.or_eq_true, beq_iff_eq] at h
  rcases h with ((rfl | rfl) | rfl) | rfl <;> rfl

private theorem exists_opening_cons_canonical (pattern : Pattern) :
    ∃ c text, pattern.canonical = c :: text ∧ isOpening c = true := by
  cases pattern with
  | note spec =>
    obtain ⟨c, text, heq, hc⟩ := spec.exists_cons_canonical
    refine ⟨c, text, heq, ?_⟩
    rcases hc with hc | rfl
    · simp [isOpening, hc]
    · rfl
  | sequence _ | alternation _ | group _ _ => exact ⟨_, _, rfl, rfl⟩

/-- What may follow a pattern: nothing, or a blank or a closing bracket. -/
private def IsFollowed (rest : List Char) : Prop :=
  ∀ c ∈ rest.head?, isEnding c = true

private theorem not_followed_canonical_append {pattern : Pattern} {rest : List Char} :
    ¬ IsFollowed (pattern.canonical ++ rest) := by
  intro h
  obtain ⟨c, text, heq, hopening⟩ := exists_opening_cons_canonical pattern
  have hending : isEnding c = true := h c (by rw [heq]; rfl)
  rw [isOpening_eq_false_of_isEnding hending] at hopening
  cases hopening

/-- What may follow the children of a node: a closing bracket, or the next branch. -/
private inductive IsClosed : List Char → Prop
  | bracket {c : Char} (rest : List Char) (hspace : c ≠ ' ') (hending : isEnding c = true) :
    IsClosed (c :: rest)
  | bar (rest : List Char) : IsClosed (' ' :: '|' :: rest)

private theorem IsClosed.isFollowed {rest : List Char} (h : IsClosed rest) : IsFollowed rest := by
  intro c hc
  cases h with
  | bracket rest hspace hending =>
    obtain rfl := Option.some.inj hc
    exact hending
  | bar rest =>
    obtain rfl := Option.some.inj hc
    rfl

private theorem isFollowed_followers_append (children : List Pattern) {rest : List Char}
    (h : IsClosed rest) : IsFollowed (followers children ++ rest) := by
  cases children with
  | nil => exact h.isFollowed
  | cons child children =>
    intro c hc
    obtain rfl := Option.some.inj hc
    rfl

private theorem isClosed_furtherBranches_append (branches : List (List Pattern))
    (rest : List Char) : IsClosed (furtherBranches branches ++ '>' :: rest) := by
  cases branches with
  | nil => exact .bracket rest (by decide) rfl
  | cons branch branches => exact .bar _

/-- A blank after a pattern is followed by another one only if no branch follows. -/
private theorem not_closed_space_canonical_append {pattern : Pattern} {rest : List Char} :
    ¬ IsClosed (' ' :: (pattern.canonical ++ rest)) := by
  obtain ⟨c, text, heq, hopening⟩ := exists_opening_cons_canonical pattern
  rw [heq]
  intro h
  cases h with
  | bracket rest hspace hending => exact hspace rfl
  | bar rest => cases hopening

/-- The text of a pattern with something after it tells the pattern, and the rest. -/
private def Tells (pattern : Pattern) : Prop :=
  ∀ {other : Pattern} {rest others : List Char}, IsFollowed rest → IsFollowed others →
    pattern.canonical ++ rest = other.canonical ++ others →
    pattern.shown = other.shown ∧ rest = others

section Children

variable {children : List Pattern} (htells : ∀ child ∈ children, Tells child)
include htells

private theorem shownChildren_eq_of_followers_append {other : List Pattern}
    {rest others : List Char} (hrest : IsClosed rest) (hothers : IsClosed others)
    (h : followers children ++ rest = followers other ++ others) :
    shownChildren children = shownChildren other ∧ rest = others := by
  induction children generalizing other with
  | nil =>
    cases other with
    | nil => exact ⟨rfl, h⟩
    | cons child other =>
      simp only [followers, List.flatMap_nil, List.nil_append, List.flatMap_cons,
        List.cons_append, List.append_assoc] at h
      exact absurd (h ▸ hrest) not_closed_space_canonical_append
  | cons child children ih =>
    cases other with
    | nil =>
      simp only [followers, List.flatMap_nil, List.nil_append, List.flatMap_cons,
        List.cons_append, List.append_assoc] at h
      exact absurd (h.symm ▸ hothers) not_closed_space_canonical_append
    | cons next other =>
      simp only [followers, List.flatMap_cons, List.cons_append, List.append_assoc] at h
      obtain ⟨hchild, hmore⟩ := htells child List.mem_cons_self
        (isFollowed_followers_append children hrest) (isFollowed_followers_append other hothers)
        (List.cons.inj h).2
      obtain ⟨hchildren, heq⟩ := ih (fun c hc => htells c (List.mem_cons_of_mem _ hc)) hmore
      exact ⟨by rw [shownChildren, shownChildren, hchild, hchildren], heq⟩

private theorem shownChildren_eq_of_spaced_append {other : List Pattern}
    {rest others : List Char} (hrest : IsClosed rest) (hothers : IsClosed others)
    (h : spaced (childTexts children) ++ rest = spaced (childTexts other) ++ others) :
    shownChildren children = shownChildren other ∧ rest = others := by
  cases children with
  | nil =>
    cases other with
    | nil => exact ⟨rfl, h⟩
    | cons child other =>
      rw [spaced_cons, List.append_assoc, spaced_nil, List.nil_append] at h
      exact absurd (h ▸ hrest.isFollowed) not_followed_canonical_append
  | cons child children =>
    rw [spaced_cons, List.append_assoc] at h
    cases other with
    | nil =>
      rw [spaced_nil, List.nil_append] at h
      exact absurd (h.symm ▸ hothers.isFollowed) not_followed_canonical_append
    | cons next other =>
      rw [spaced_cons, List.append_assoc] at h
      obtain ⟨hchild, hmore⟩ := htells child List.mem_cons_self
        (isFollowed_followers_append children hrest) (isFollowed_followers_append other hothers) h
      obtain ⟨hchildren, heq⟩ := shownChildren_eq_of_followers_append
        (fun c hc => htells c (List.mem_cons_of_mem _ hc)) hrest hothers hmore
      exact ⟨by rw [shownChildren, shownChildren, hchild, hchildren], heq⟩

end Children

section Branches

variable {branches : List (List Pattern)}

private theorem shownBranches_eq_of_furtherBranches_append
    (htells : ∀ branch ∈ branches, ∀ child ∈ branch, Tells child) {other : List (List Pattern)}
    {rest others : List Char}
    (h : furtherBranches branches ++ '>' :: rest = furtherBranches other ++ '>' :: others) :
    shownBranches branches = shownBranches other ∧ rest = others := by
  induction branches generalizing other with
  | nil =>
    cases other with
    | nil => exact ⟨rfl, (List.cons.inj h).2⟩
    | cons branch other => cases h
  | cons branch branches ih =>
    cases other with
    | nil => cases h
    | cons next other =>
      simp only [furtherBranches, List.flatMap_cons, List.cons_append, List.append_assoc,
        List.cons.injEq, true_and] at h
      obtain ⟨hbranch, hmore⟩ := shownChildren_eq_of_spaced_append
        (htells branch List.mem_cons_self) (isClosed_furtherBranches_append branches rest)
        (isClosed_furtherBranches_append other others) h
      obtain ⟨hbranches, heq⟩ := ih (fun b hb => htells b (List.mem_cons_of_mem _ hb)) hmore
      exact ⟨by rw [shownBranches, shownBranches, hbranch, hbranches], heq⟩

/-- The text of a choice, of which no branches look like an empty one. -/
private theorem exists_canonical_alternation (branches : List (List Pattern)) :
    ∃ branch further, shownChoice branches = branch :: further ∧
      (alternation branches).canonical =
        '<' :: (spaced (childTexts branch) ++ (furtherBranches further ++ ['>'])) := by
  cases branches with
  | nil => exact ⟨[], [], rfl, rfl⟩
  | cons branch further =>
    refine ⟨branch, further, rfl, ?_⟩
    rw [canonical, intercalate_branchTexts]
    simp

private theorem shownChoice_shownBranches (branches : List (List Pattern)) :
    shownChoice (shownBranches branches) = shownBranches (shownChoice branches) := by
  cases branches <;> rfl

private theorem tells_alternation
    (htells : ∀ branch ∈ branches, ∀ child ∈ branch, Tells child) :
    Tells (alternation branches) := by
  intro other rest others _ _ h
  obtain ⟨branch, further, hchoice, heq⟩ := exists_canonical_alternation branches
  cases other with
  | alternation otherBranches =>
    obtain ⟨otherBranch, otherFurther, hother, hotherEq⟩ :=
      exists_canonical_alternation otherBranches
    have htells : ∀ b ∈ branch :: further, ∀ child ∈ b, Tells child := by
      rw [← hchoice]
      cases branches with
      | nil => simp [shownChoice]
      | cons first branches => exact htells
    simp only [heq, hotherEq, List.cons_append, List.append_assoc, List.nil_append,
      List.cons.injEq, true_and] at h
    obtain ⟨hbranch, hmore⟩ := shownChildren_eq_of_spaced_append
      (htells branch List.mem_cons_self) (isClosed_furtherBranches_append further rest)
      (isClosed_furtherBranches_append otherFurther others) h
    obtain ⟨hfurther, hrest⟩ := shownBranches_eq_of_furtherBranches_append
      (fun b hb => htells b (List.mem_cons_of_mem _ hb)) hmore
    refine ⟨?_, hrest⟩
    rw [shown, shown, shownChoice_shownBranches, shownChoice_shownBranches, hchoice, hother,
      shownBranches, shownBranches, hbranch, hfurther]
  | note spec =>
    rw [heq] at h
    exact absurd h.symm (spec.canonical_append_ne rfl (by decide))
  | sequence children | group children bounds =>
    rw [heq] at h
    cases h

end Branches

private theorem tells_note (spec : NotePattern) : Tells (note spec) := by
  intro other rest others hrest hothers h
  have hend : ∀ {rest : List Char}, IsFollowed rest →
      ∀ c ∈ rest.head?, NotePattern.isInNote c = false := by
    intro rest hrest c hc
    have hending := hrest c hc
    simp only [isEnding, Bool.or_eq_true, beq_iff_eq] at hending
    rcases hending with ((rfl | rfl) | rfl) | rfl <;> rfl
  cases other with
  | note otherSpec =>
    obtain ⟨hshown, heq⟩ := NotePattern.shown_eq_of_canonical_append (hend hrest) (hend hothers) h
    exact ⟨by rw [shown, shown, hshown], heq⟩
  | sequence _ | alternation _ | group _ _ =>
    exact absurd h (spec.canonical_append_ne rfl (by decide))

private theorem tells_sequence {children : List Pattern}
    (htells : ∀ child ∈ children, Tells child) : Tells (sequence children) := by
  intro other rest others _ _ h
  cases other with
  | sequence otherChildren =>
    simp only [canonical, List.cons_append, List.append_assoc, List.nil_append, List.cons.injEq,
      true_and] at h
    obtain ⟨hchildren, heq⟩ := shownChildren_eq_of_spaced_append htells
      (.bracket rest (by decide) rfl) (.bracket others (by decide) rfl) h
    exact ⟨by rw [shown, shown, hchildren], (List.cons.inj heq).2⟩
  | note spec => exact absurd h.symm (spec.canonical_append_ne rfl (by decide))
  | alternation _ | group _ _ => cases h

private theorem tells_group {children : List Pattern} (bounds : Bounds)
    (htells : ∀ child ∈ children, Tells child) : Tells (group children bounds) := by
  intro other rest others _ _ h
  cases other with
  | group otherChildren otherBounds =>
    simp only [canonical, List.cons_append, List.append_assoc, List.nil_append, List.cons.injEq,
      true_and] at h
    obtain ⟨hchildren, hmore⟩ := shownChildren_eq_of_spaced_append htells
      (.bracket _ (by decide) rfl) (.bracket _ (by decide) rfl) h
    obtain ⟨hbounds, heq⟩ := Bounds.eq_and_eq_of_canonical_append (List.cons.inj hmore).2
    exact ⟨by rw [shown, shown, hchildren, hbounds], heq⟩
  | note spec => exact absurd h.symm (spec.canonical_append_ne rfl (by decide))
  | alternation _ | sequence _ => cases h

mutual

private theorem tells : (pattern : Pattern) → Tells pattern
  | note spec => tells_note spec
  | sequence children => tells_sequence (tells_of_mem children)
  | alternation branches => tells_alternation (tells_of_mem_branches branches)
  | group children bounds => tells_group bounds (tells_of_mem children)

private theorem tells_of_mem : (children : List Pattern) → ∀ child ∈ children, Tells child
  | [] => by simp
  | child :: children => List.forall_mem_cons.mpr ⟨tells child, tells_of_mem children⟩

private theorem tells_of_mem_branches : (branches : List (List Pattern)) →
    ∀ branch ∈ branches, ∀ child ∈ branch, Tells child
  | [] => by simp
  | branch :: branches =>
    List.forall_mem_cons.mpr ⟨tells_of_mem branch, tells_of_mem_branches branches⟩

end

variable {pattern other : Pattern}

/-- The text of a pattern tells the pattern. -/
theorem shown_eq_of_canonical_eq (h : pattern.canonical = other.canonical) :
    pattern.shown = other.shown := by
  have hnothing : IsFollowed [] := by simp [IsFollowed]
  exact (tells pattern hnothing hnothing (by rw [h])).1

/-- Patterns with the same text compile to the same. -/
theorem compile_eq_of_canonical_eq (h : pattern.canonical = other.canonical) :
    pattern.compile = other.compile := by
  have hshown := shown_eq_of_canonical_eq h
  have hexpression : pattern.expression = other.expression := by
    rw [← expression_shown pattern, hshown, expression_shown]
  have hfallbacks : pattern.fallbacks = other.fallbacks := by
    rw [← fallbacks_shown pattern, hshown, fallbacks_shown]
  rw [compile, compile, hexpression, hfallbacks, h]

/-- Proper patterns with the same text are the same. -/
theorem eq_of_canonical_eq (hpattern : pattern.IsProper) (hother : other.IsProper)
    (h : pattern.canonical = other.canonical) : pattern = other := by
  rw [← shown_eq_self pattern hpattern, shown_eq_of_canonical_eq h, shown_eq_self other hother]

end Pattern

end MotifSearch
