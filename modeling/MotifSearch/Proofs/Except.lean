/-!
# Results of steps that may fail

## Main results

* `exists_of_map_eq_ok`, `exists_of_bind_eq_ok` — a result comes of the results of the steps
-/

namespace MotifSearch.Except

variable {ε α β : Type} {result : Except ε α} {b : β}

theorem bind_of_eq_ok {a : α} (h : result = .ok a) (next : α → Except ε β) :
    (result >>= next) = next a := by
  rw [h]
  rfl

theorem exists_of_map_eq_ok {f : α → β} (h : result.map f = .ok b) :
    ∃ a, result = .ok a ∧ b = f a := by
  cases result with
  | error e => cases h
  | ok a => exact ⟨a, rfl, (Except.ok.inj h).symm⟩

theorem exists_of_bind_eq_ok {next : α → Except ε β} (h : (result >>= next) = .ok b) :
    ∃ a, result = .ok a ∧ next a = .ok b := by
  cases result with
  | error e => cases h
  | ok a => exact ⟨a, rfl, h⟩

end MotifSearch.Except
