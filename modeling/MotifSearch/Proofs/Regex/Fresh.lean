import MotifSearch.Proofs.Regex.Address
import MotifSearch.Proofs.Regex.Moves
import MotifSearch.Proofs.Regex.Soundness

/-!
# Moves where no choice has been passed

Between two characters no choice is made twice. Where none of the choices of an expression has been
made yet, this leaves nothing out: there are moves for all words that the expression matches.

## Main definitions

* `Stops`, `Accepts` — moves allow to stop, to read a word
* `Fresh` — no choice below an address has been passed

## Main results

* `passed_below` — an expression passes no choices but its own
* `stops_of_meaning`, `moves_complete` — there are moves for all matches
-/

namespace MotifSearch.Regex

/-- Whether one of the moves is to stop. -/
def Stops (moves : List Move) : Prop :=
  ∃ passed, .stop passed ∈ moves

/-- Whether a word can be read that begins with a move. -/
def Accepts (moves : List Move) (c : Char) (word after : List Char) : Prop :=
  ∃ set left, .read set left ∈ moves ∧ set.contains c = true ∧
    Part.meaningOfAll left (c == '\n') word after

section Operations

variable {andThen : List Nat → List Move} {moves : List Move} {after : List Part}
variable {passed : List Nat}

theorem stop_mem_stopOnce (h : Stops moves) : Stops (stopOnce moves) := by
  obtain ⟨passed, hpassed⟩ := h
  have hany : (stopOnce moves).any Move.isStop = true := by
    rw [any_isStop_stopOnce]
    exact List.any_eq_true.mpr ⟨_, hpassed, rfl⟩
  obtain ⟨move, hmove, hstop⟩ := List.any_eq_true.mp hany
  cases move with
  | stop passed => exact ⟨passed, hmove⟩
  | read set left => simp [Move.isStop] at hstop

theorem accepts_continueWith_of_left {c : Char} {here there text : List Char}
    (hhere : Accepts moves c here (there ++ text))
    (hthere : Part.meaningOfAll after (lineStartAfter (c == '\n') here) there text) :
    Accepts (continueWith andThen after moves) c (here ++ there) text := by
  obtain ⟨set, left, hmove, hset, hleft⟩ := hhere
  refine ⟨set, left ++ after, read_mem_continueWith.mpr (Or.inl ⟨left, hmove, rfl⟩), hset, ?_⟩
  rw [Part.meaningOfAll_append]
  exact ⟨here, there, rfl, hleft, hthere⟩

theorem accepts_continueWith_of_right {c : Char} {word text : List Char}
    (hpassed : .stop passed ∈ moves) (h : Accepts (andThen passed) c word text) :
    Accepts (continueWith andThen after moves) c word text := by
  obtain ⟨set, left, hmove, hset, hleft⟩ := h
  exact ⟨set, left, read_mem_continueWith.mpr (Or.inr ⟨passed, hpassed, hmove⟩), hset, hleft⟩

variable {address : Nat} {greedy : Bool} {inner : List Nat → List Move}

theorem stops_choose (h : address ∉ passed) : Stops (choose address greedy inner passed) := by
  rw [choose, if_neg h]
  apply stop_mem_stopOnce
  refine ⟨address :: passed, ?_⟩
  split <;> simp

theorem accepts_choose {c : Char} {word text : List Char} (hfree : address ∉ passed)
    (h : Accepts (inner (address :: passed)) c word text) :
    Accepts (choose address greedy inner passed) c word text := by
  obtain ⟨set, left, hmove, hset, hleft⟩ := h
  exact ⟨set, left, read_mem_choose.mpr ⟨hfree, hmove⟩, hset, hleft⟩

theorem stops_againMoves {body : Regex} (h : 2 * address + 1 ∉ passed) :
    Stops (againMoves address greedy body inner passed) :=
  stops_choose h

variable {place : Place} {first rest : Regex} {c : Char} {word text : List Char}

theorem accepts_alt_of_left (hfree : address ∉ passed)
    (h : Accepts (first.moves place (2 * address) (address :: passed)) c word text) :
    Accepts ((alt first rest).moves place address passed) c word text := by
  obtain ⟨set, left, hmove, hset⟩ := h
  rw [Regex.moves, if_neg hfree]
  exact ⟨set, left, read_mem_stopOnce.mpr (List.mem_append_left _ hmove), hset⟩

theorem accepts_alt_of_right (hfree : address ∉ passed)
    (h : Accepts (rest.moves place (2 * address + 1) (address :: passed)) c word text) :
    Accepts ((alt first rest).moves place address passed) c word text := by
  obtain ⟨set, left, hmove, hset⟩ := h
  rw [Regex.moves, if_neg hfree]
  exact ⟨set, left, read_mem_stopOnce.mpr (List.mem_append_right _ hmove), hset⟩

end Operations

variable {place : Place}

section Passed

private theorem choose_below {address : Nat} {greedy : Bool} {inner : List Nat → List Move}
    {passed stopped : List Nat}
    (hinner : ∀ passed stopped, .stop stopped ∈ inner passed →
      ∀ x ∈ stopped, x ∈ passed ∨ Below address x)
    {choice : Nat} (hchoice : Below address choice)
    (h : .stop stopped ∈ choose choice greedy inner passed) :
    ∀ x ∈ stopped, x ∈ passed ∨ Below address x := by
  intro x hx
  have hcons : x ∈ choice :: passed → x ∈ passed ∨ Below address x := by
    intro hx
    rcases List.mem_cons.mp hx with rfl | hx
    · exact Or.inr hchoice
    · exact Or.inl hx
  rcases stop_mem_choose h with rfl | h
  · exact hcons hx
  · rcases hinner _ _ h x hx with hx | hx
    · exact hcons hx
    · exact Or.inr hx

variable {address : Nat} {greedy : Bool} {body : Regex} {inner : List Nat → List Move}
variable {passed stopped : List Nat}

theorem againMoves_below
    (h : .stop stopped ∈ againMoves address greedy body inner passed) :
    ∀ x ∈ stopped, x ∈ passed ∨ Below address x := by
  refine choose_below (fun passed stopped h => ?_) (below_right address) h
  obtain ⟨_, _, h⟩ := stop_mem_continueWith.mp h
  simp at h

private theorem firstMoves_below
    (hinner : ∀ passed stopped, .stop stopped ∈ inner passed →
      ∀ x ∈ stopped, x ∈ passed ∨ Below (2 * address) x)
    (h : .stop stopped ∈ firstMoves address greedy body inner passed) :
    ∀ x ∈ stopped, x ∈ passed ∨ Below address x := by
  obtain ⟨between, hbetween, h⟩ := stop_mem_continueWith.mp h
  split at h
  · simp at h
  · obtain rfl := Move.stop.inj (List.mem_singleton.mp h)
    intro x hx
    rcases List.mem_cons.mp hx with rfl | hx
    · exact Or.inr (below_right address)
    · exact (hinner _ _ hbetween x hx).imp_right Below.of_left

/-- Only choices below its address are passed when an expression matches the empty word. -/
theorem passed_below {regex : Regex} (h : .stop stopped ∈ regex.moves place address passed) :
    ∀ x ∈ stopped, x ∈ passed ∨ Below address x := by
  -- What is below a child is below the expression, and so are the choices of the expression itself.
  induction regex generalizing address passed stopped with
  | empty =>
    obtain rfl := Move.stop.inj (List.mem_singleton.mp h)
    exact fun x => Or.inl
  | chars set => simp [moves] at h
  | lineStart =>
    rw [moves] at h
    split at h
    · obtain rfl := Move.stop.inj (List.mem_singleton.mp h)
      exact fun x => Or.inl
    · simp at h
  | notAhead set =>
    rw [moves] at h
    split at h
    · simp at h
    · obtain rfl := Move.stop.inj (List.mem_singleton.mp h)
      exact fun x => Or.inl
  | group captures body ih => exact fun x hx => (ih h x hx).imp_right Below.of_left
  | cat first rest ihfirst ihrest =>
    obtain ⟨between, hbetween, h⟩ := stop_mem_continueWith.mp h
    intro x hx
    rcases ihrest h x hx with hx | hx
    · exact (ihfirst hbetween x hx).imp_right Below.of_left
    · exact Or.inr hx.of_right
  | alt first rest ihfirst ihrest =>
    rw [moves] at h
    split at h
    · simp at h
    · intro x hx
      have hcons : x ∈ address :: passed → x ∈ passed ∨ Below address x := by
        intro hx
        rcases List.mem_cons.mp hx with rfl | hx
        · exact Or.inr (Below.refl x)
        · exact Or.inl hx
      rcases List.mem_append.mp (mem_of_mem_stopOnce h) with h | h
      · rcases ihfirst h x hx with hx | hx
        · exact hcons hx
        · exact Or.inr hx.of_left
      · rcases ihrest h x hx with hx | hx
        · exact hcons hx
        · exact Or.inr hx.of_right
  | loop times greedy body ih =>
    have hbody : ∀ passed stopped, .stop stopped ∈ body.moves place (2 * address) passed →
        ∀ x ∈ stopped, x ∈ passed ∨ Below (2 * address) x := fun _ _ h => ih h
    cases times with
    | optional =>
      refine choose_below (fun passed stopped h x hx => ?_) (Below.refl address) h
      exact (hbody _ _ h x hx).imp_right Below.of_left
    | oneOrMore => exact firstMoves_below hbody h
    | zeroOrMore =>
      rw [moves] at h
      split at h
      · exact choose_below (fun _ _ h => firstMoves_below hbody h) (Below.refl address) h
      · exact againMoves_below h

end Passed

/-- Whether no choice below an address has been passed. -/
def Fresh (address : Nat) (passed : List Nat) : Prop :=
  ∀ x ∈ passed, ¬ Below address x

namespace Fresh

variable {address : Nat} {passed stopped : List Nat}

theorem nil (address : Nat) : Fresh address [] := by
  simp [Fresh]

theorem not_mem (h : Fresh address passed) : address ∉ passed :=
  fun hmem => h _ hmem (Below.refl address)

theorem left (h : Fresh address passed) : Fresh (2 * address) passed :=
  fun x hx hbelow => h x hx hbelow.of_left

theorem right (h : Fresh address passed) : Fresh (2 * address + 1) passed :=
  fun x hx hbelow => h x hx hbelow.of_right

theorem cons {choice : Nat} (h : Fresh address passed) (hchoice : ¬ Below address choice) :
    Fresh address (choice :: passed) := by
  intro x hx
  rcases List.mem_cons.mp hx with rfl | hx
  · exact hchoice
  · exact h x hx

/-- What is below one child stays fresh while the other one is matched. -/
theorem right_of_left (h : Fresh address passed) (hpos : 0 < address)
    (hstopped : ∀ x ∈ stopped, x ∈ passed ∨ Below (2 * address) x) :
    Fresh (2 * address + 1) stopped := by
  intro x hx hbelow
  rcases hstopped x hx with hx | hx
  · exact h x hx hbelow.of_right
  · exact Below.disjoint hpos hx hbelow

end Fresh

section Complete

variable {regex body : Regex} {address : Nat} {greedy : Bool} {passed : List Nat}
variable {c : Char} {word after : List Char}

/-- Where no choice has been passed, an expression that matches the empty word has a stop. -/
theorem stops_of_meaning (hpos : 0 < address) (hfresh : Fresh address passed)
    (hafter : after.head? = place.next) (h : regex.meaning place.atLineStart [] after) :
    Stops (regex.moves place address passed) := by
  induction regex generalizing address passed with
  | empty => exact ⟨passed, List.mem_singleton.mpr rfl⟩
  | chars set =>
    obtain ⟨_, _, h⟩ := h
    simp at h
  | lineStart =>
    rw [moves, if_pos h.1]
    exact ⟨passed, List.mem_singleton.mpr rfl⟩
  | notAhead set =>
    rw [moves, if_neg (by simp [← hafter, h.1])]
    exact ⟨passed, List.mem_singleton.mpr rfl⟩
  | group captures body ih => exact ih (by omega) hfresh.left h
  | cat first rest ihfirst ihrest =>
    obtain ⟨hfirst, hrest⟩ := Meaning.followedBy_nil.mp h
    obtain ⟨between, hbetween⟩ := ihfirst (by omega) hfresh.left hfirst
    have hright := hfresh.right_of_left hpos (passed_below hbetween)
    obtain ⟨stopped, hstopped⟩ := ihrest (by omega) hright hrest
    exact ⟨stopped, stop_mem_continueWith.mpr ⟨between, hbetween, hstopped⟩⟩
  | alt first rest ihfirst ihrest =>
    rw [moves, if_neg hfresh.not_mem]
    apply stop_mem_stopOnce
    rcases h with h | h
    · obtain ⟨stopped, hstopped⟩ :=
        ihfirst (by omega) (hfresh.left.cons (not_below_left hpos)) h
      exact ⟨stopped, List.mem_append_left _ hstopped⟩
    · obtain ⟨stopped, hstopped⟩ :=
        ihrest (by omega) (hfresh.right.cons (not_below_right hpos)) h
      exact ⟨stopped, List.mem_append_right _ hstopped⟩
  | loop times greedy body ih =>
    cases times with
    | optional => exact stops_choose hfresh.not_mem
    | oneOrMore =>
      -- The loop can end after the first iteration, which reads nothing.
      obtain ⟨between, hbetween⟩ := ih (by omega) hfresh.left h.nil_inv
      have hright := hfresh.right_of_left hpos (passed_below hbetween)
      refine ⟨(2 * address + 1) :: between, stop_mem_continueWith.mpr ⟨between, hbetween, ?_⟩⟩
      rw [if_neg hright.not_mem]
      exact List.mem_singleton.mpr rfl
    | zeroOrMore =>
      rw [moves]
      split
      · exact stops_choose hfresh.not_mem
      · exact stops_choose hfresh.right.not_mem

private theorem accepts_firstMoves {inner : List Nat → List Move}
    (hinner : ∀ left right, body.meaning place.atLineStart (c :: left) right →
      Accepts (inner passed) c left right)
    (h : Meaning.Iterated body.meaning place.atLineStart (c :: word) after) :
    Accepts (firstMoves address greedy body inner passed) c word after := by
  obtain ⟨left, right, rfl, hleft, hright⟩ := h.cons_inv
  refine accepts_continueWith_of_left (hinner _ _ hleft) ?_
  rwa [Part.meaningOfAll_singleton]

theorem accepts_againMoves {inner : List Nat → List Move}
    (hfree : 2 * address + 1 ∉ passed)
    (hinner : ∀ left right, body.meaning place.atLineStart (c :: left) right →
      Accepts (inner ((2 * address + 1) :: passed)) c left right)
    (h : Meaning.Iterated body.meaning place.atLineStart (c :: word) after) :
    Accepts (againMoves address greedy body inner passed) c word after := by
  obtain ⟨left, right, rfl, hleft, hright⟩ := h.cons_inv
  refine accepts_choose hfree (accepts_continueWith_of_left (hinner _ _ hleft) ?_)
  rwa [Part.meaningOfAll_singleton]

/-- Where no choice has been passed, an expression accepts all words that it matches. -/
theorem moves_complete (hpos : 0 < address) (hfresh : Fresh address passed)
    (hnext : place.next = some c) (h : regex.meaning place.atLineStart (c :: word) after) :
    Accepts (regex.moves place address passed) c word after := by
  induction regex generalizing address passed word after with
  | empty => cases h
  | chars set =>
    obtain ⟨d, hset, heq⟩ := h
    obtain ⟨rfl, rfl⟩ := List.cons.inj heq
    exact ⟨set, [], List.mem_singleton.mpr rfl, hset, rfl⟩
  | lineStart => cases h.2
  | notAhead set => cases h.2
  | group captures body ih => exact ih (by omega) hfresh.left h
  | cat first rest ihfirst ihrest =>
    rcases Meaning.followedBy_cons.mp h with ⟨hfirst, hrest⟩ | ⟨here, there, rfl, hfirst, hrest⟩
    · have hhead : (c :: word ++ after).head? = place.next := hnext.symm
      obtain ⟨between, hbetween⟩ := stops_of_meaning (by omega) hfresh.left hhead hfirst
      have hright := hfresh.right_of_left hpos (passed_below hbetween)
      exact accepts_continueWith_of_right hbetween (ihrest (by omega) hright hrest)
    · refine accepts_continueWith_of_left (ihfirst (by omega) hfresh.left hfirst) ?_
      rwa [Part.meaningOfAll_singleton]
  | alt first rest ihfirst ihrest =>
    rcases h with h | h
    · have hleft := hfresh.left.cons (not_below_left hpos)
      exact accepts_alt_of_left hfresh.not_mem (ihfirst (by omega) hleft h)
    · have hright := hfresh.right.cons (not_below_right hpos)
      exact accepts_alt_of_right hfresh.not_mem (ihrest (by omega) hright h)
  | loop times greedy body ih =>
    have hleft := hfresh.left.cons (not_below_left hpos)
    cases times with
    | optional =>
      rcases h with h | h
      · cases h
      · exact accepts_choose hfresh.not_mem (ih (by omega) hleft h)
    | oneOrMore => exact accepts_firstMoves (fun _ _ h => ih (by omega) hfresh.left h) h
    | zeroOrMore =>
      rcases h with h | h
      · cases h
      · rw [moves]
        split
        · refine accepts_choose hfresh.not_mem ?_
          exact accepts_firstMoves (fun _ _ h => ih (by omega) hleft h) h
        · -- The choice to go on is below the other child, so it is none of the body.
          refine accepts_againMoves hfresh.right.not_mem (fun _ _ h => ih (by omega) ?_ h) h
          refine hfresh.left.cons fun hbelow => ?_
          exact Below.disjoint hpos hbelow (Below.refl _)

end Complete

end MotifSearch.Regex
