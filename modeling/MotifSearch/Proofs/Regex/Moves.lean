import MotifSearch.Regex.Match

/-!
# Moves

What the operations on moves do to the stops and to the reads among them. The moves of parts that
follow each other are those of the first parts, continued with those of the others.

## Main results

* `stop_mem_continueWith`, `read_mem_continueWith` — the moves of something and then something else
* `stop_mem_choose`, `read_mem_choose` — the moves of a choice
* `exists_of_read_mem_loop` — the reads of a loop
* `movesOfAll_append`, `movesOfAll_concat` — the moves of parts that follow each other
-/

namespace MotifSearch.Regex

variable {andThen : List Nat → List Move} {moves : List Move} {after : List Part}
variable {set : CharSet} {left : List Part} {passed stopped : List Nat}

theorem mem_of_mem_stopOnce {move : Move} (h : move ∈ stopOnce moves) : move ∈ moves := by
  induction moves with
  | nil => exact h
  | cons head moves ih =>
    cases head with
    | stop passed =>
      simp only [stopOnce, List.mem_cons, List.mem_filter] at h ⊢
      exact h.imp_right And.left
    | read set left =>
      simp only [stopOnce, List.mem_cons] at h ⊢
      exact h.imp_right ih

theorem stop_mem_continueWith : .stop stopped ∈ continueWith andThen after moves ↔
    ∃ passed, .stop passed ∈ moves ∧ .stop stopped ∈ andThen passed := by
  constructor
  · intro h
    obtain ⟨move, hmove, h⟩ := List.mem_flatMap.mp h
    cases move with
    | stop passed => exact ⟨passed, hmove, h⟩
    | read set left => simp at h
  · rintro ⟨passed, hpassed, h⟩
    exact List.mem_flatMap.mpr ⟨_, hpassed, h⟩

theorem read_mem_continueWith : .read set left ∈ continueWith andThen after moves ↔
    (∃ more, .read set more ∈ moves ∧ left = more ++ after) ∨
      ∃ passed, .stop passed ∈ moves ∧ .read set left ∈ andThen passed := by
  constructor
  · intro h
    obtain ⟨move, hmove, h⟩ := List.mem_flatMap.mp h
    cases move with
    | stop passed => exact Or.inr ⟨passed, hmove, h⟩
    | read otherSet more =>
      obtain ⟨rfl, rfl⟩ := by simpa using h
      exact Or.inl ⟨more, hmove, rfl⟩
  · rintro (⟨more, hmore, rfl⟩ | ⟨passed, hpassed, h⟩)
    · exact List.mem_flatMap.mpr ⟨_, hmore, List.mem_singleton.mpr rfl⟩
    · exact List.mem_flatMap.mpr ⟨_, hpassed, h⟩

/-- Going on twice is going on with what goes on. -/
theorem continueWith_assoc (between : List Nat → List Move) (middle : List Part) :
    continueWith andThen after (continueWith between middle moves) =
      continueWith (fun passed => continueWith andThen after (between passed)) (middle ++ after)
        moves := by
  rw [continueWith, continueWith, List.flatMap_assoc]
  congr 1
  funext move
  cases move with
  | stop passed => rfl
  | read set left => simp

@[simp] theorem continueWith_stop (passed : List Nat) :
    continueWith andThen after [.stop passed] = andThen passed := by
  simp [continueWith]

/-- The moves of parts that follow each other. -/
theorem movesOfAll_append (place : Place) (first second : List Part) (passed : List Nat) :
    Part.movesOfAll place (first ++ second) passed =
      continueWith (Part.movesOfAll place second) second (Part.movesOfAll place first passed) := by
  induction first generalizing passed with
  | nil => simp [Part.movesOfAll]
  | cons part first ih =>
    rw [List.cons_append, Part.movesOfAll, Part.movesOfAll, continueWith_assoc]
    congr 1
    funext passed
    exact ih passed

@[simp] theorem movesOfAll_singleton (place : Place) (part : Part) (passed : List Nat) :
    Part.movesOfAll place [part] passed = part.moves place passed := by
  calc
    Part.movesOfAll place [part] passed = (part.moves place passed).flatMap fun move => [move] := by
      rw [Part.movesOfAll, continueWith]
      congr 1
      funext move
      cases move with
      | stop passed => rfl
      | read set left => simp
    _ = part.moves place passed := List.flatMap_singleton' _

/-- The moves of parts and one more part. -/
theorem movesOfAll_concat (place : Place) (parts : List Part) (last : Part) (passed : List Nat) :
    Part.movesOfAll place (parts ++ [last]) passed =
      continueWith (last.moves place) [last] (Part.movesOfAll place parts passed) := by
  rw [movesOfAll_append]
  congr 1
  funext passed
  exact movesOfAll_singleton place last passed

section Choose

variable {address : Nat} {greedy : Bool} {inner : List Nat → List Move}

theorem stop_mem_choose (h : .stop stopped ∈ choose address greedy inner passed) :
    stopped = address :: passed ∨ .stop stopped ∈ inner (address :: passed) := by
  unfold choose at h
  split at h
  · simp at h
  · have hmem := mem_of_mem_stopOnce h
    split at hmem
    · simpa [or_comm] using hmem
    · simpa using hmem

theorem read_mem_choose : .read set left ∈ choose address greedy inner passed ↔
    address ∉ passed ∧ .read set left ∈ inner (address :: passed) := by
  unfold choose
  split
  · next h => simp [h]
  · next h => split <;> simp [h]

end Choose

section Loop

variable {place : Place} {address : Nat} {greedy : Bool} {body : Regex}
variable {inner : List Nat → List Move}

/-- A further iteration begins with what the body of the loop reads. -/
theorem exists_of_read_mem_againMoves
    (h : .read set left ∈ againMoves address greedy body inner passed) :
    ∃ between more, .read set more ∈ inner between ∧
      left = more ++ [.again address greedy body] := by
  rcases read_mem_continueWith.mp (read_mem_choose.mp h).2 with ⟨more, hmore, rfl⟩ | ⟨_, _, h⟩
  · exact ⟨_, more, hmore, rfl⟩
  · simp at h

private theorem exists_of_read_mem_firstMoves
    (h : .read set left ∈ firstMoves address greedy body inner passed) :
    ∃ between more, .read set more ∈ inner between ∧
      left = more ++ [.again address greedy body] := by
  rcases read_mem_continueWith.mp h with ⟨more, hmore, rfl⟩ | ⟨_, _, h⟩
  · exact ⟨passed, more, hmore, rfl⟩
  · split at h <;> simp at h

/-- A loop that may have further iterations begins with what its body reads. -/
theorem exists_of_read_mem_loop {times : Repeat} (htimes : times ≠ .optional)
    (h : .read set left ∈ (loop times greedy body).moves place address passed) :
    ∃ between more, .read set more ∈ body.moves place (2 * address) between ∧
      left = more ++ [.again address greedy body] := by
  cases times with
  | optional => exact absurd rfl htimes
  | oneOrMore => exact exists_of_read_mem_firstMoves h
  | zeroOrMore =>
    rw [moves] at h
    split at h
    · exact exists_of_read_mem_firstMoves (read_mem_choose.mp h).2
    · exact exists_of_read_mem_againMoves h

end Loop

end MotifSearch.Regex
