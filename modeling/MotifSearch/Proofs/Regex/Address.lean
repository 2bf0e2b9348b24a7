/-!
# Addresses of subexpressions

The subexpressions of the expression at `n` have addresses in a binary tree: the children of `n` are
`2 * n` and `2 * n + 1`. What is below one child is not below the other one.

## Main definitions

* `Below` — an address is that of a subexpression, or of a choice that a subexpression offers

## Main results

* `not_below_left`, `not_below_right` — nothing is below its own child
* `Below.disjoint` — nothing is below both children
-/

namespace MotifSearch.Regex

/-- Whether the second address lies below the first one, or is the first one. -/
def Below (address inner : Nat) : Prop :=
  ∃ steps, inner >>> steps = address

variable {address inner : Nat}

theorem Below.refl (address : Nat) : Below address address := ⟨0, Nat.shiftRight_zero⟩

theorem Below.trans {middle : Nat} (houter : Below address middle) (hinner : Below middle inner) :
    Below address inner := by
  obtain ⟨outerSteps, rfl⟩ := houter
  obtain ⟨innerSteps, rfl⟩ := hinner
  exact ⟨innerSteps + outerSteps, Nat.shiftRight_add inner innerSteps outerSteps⟩

private theorem Below.of_half {child : Nat} (h : Below child inner) (hchild : child / 2 = address) :
    Below address inner := by
  obtain ⟨steps, rfl⟩ := h
  exact ⟨steps + 1, by rw [Nat.shiftRight_succ, hchild]⟩

theorem Below.of_left (h : Below (2 * address) inner) : Below address inner :=
  h.of_half (by omega)

theorem Below.of_right (h : Below (2 * address + 1) inner) : Below address inner :=
  h.of_half (by omega)

theorem below_right (address : Nat) : Below address (2 * address + 1) :=
  (Below.refl _).of_right

/-- Nothing is below an address that is greater. -/
theorem Below.le (h : Below address inner) : address ≤ inner := by
  obtain ⟨steps, rfl⟩ := h
  exact Nat.shiftRight_le _ _

theorem not_below_left (hpos : 0 < address) : ¬ Below (2 * address) address := by
  intro h
  have := h.le
  omega

theorem not_below_right (hpos : 0 < address) : ¬ Below (2 * address + 1) address := by
  intro h
  have := h.le
  omega

private theorem Below.of_le {steps more : Nat} (h : inner >>> steps = address) :
    inner >>> (steps + more) = address >>> more := by
  rw [Nat.shiftRight_add, h]

/-- What is below one child is not below the other one. -/
theorem Below.disjoint (hpos : 0 < address) (hleft : Below (2 * address) inner) :
    ¬ Below (2 * address + 1) inner := by
  rintro ⟨right, hright⟩
  obtain ⟨left, hleft⟩ := hleft
  -- Going up from `inner`, one of the siblings would have to come after the other one.
  rcases Nat.lt_trichotomy left right with hlt | heq | hlt
  · obtain ⟨more, rfl⟩ := Nat.exists_eq_add_of_lt hlt
    rw [Nat.add_assoc, Below.of_le hleft] at hright
    have := Nat.shiftRight_le (2 * address) (more + 1)
    omega
  · subst heq
    omega
  · obtain ⟨more, rfl⟩ := Nat.exists_eq_add_of_lt hlt
    rw [Nat.add_assoc, Below.of_le hright, Nat.shiftRight_succ_inside] at hleft
    have := Nat.shiftRight_le ((2 * address + 1) / 2) more
    omega

end MotifSearch.Regex
