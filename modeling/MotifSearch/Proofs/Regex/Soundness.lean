import MotifSearch.Proofs.Regex.Endings
import MotifSearch.Proofs.Regex.Meaning
import MotifSearch.Proofs.Regex.Moves

/-!
# Every ending ends a match

A move belongs to a meaning if every match that begins with the move is one of that meaning. All
moves of an expression belong to its meaning, so that what the matcher finds is always a match.

## Main definitions

* `Part.meaning`, `Part.meaningOfAll` — what parts can match
* `Move.Fits` — a move belongs to a meaning

## Main results

* `moves_fit`, `movesOfAll_fit` — the moves of an expression, of parts, belong to their meanings
* `meaning_of_mem_endings` — every ending ends a match
-/

namespace MotifSearch

/-- What a part can match. -/
def Part.meaning : Part → Meaning
  | whole _ regex => regex.meaning
  | again _ _ body => body.meaning.repeated .zeroOrMore

/-- What several parts can match, one after the other. -/
def Part.meaningOfAll (parts : List Part) : Meaning :=
  .sequence (parts.map Part.meaning)

@[simp] theorem Part.meaningOfAll_nil : Part.meaningOfAll [] = .nothing := rfl

@[simp] theorem Part.meaningOfAll_cons (part : Part) (parts : List Part) :
    Part.meaningOfAll (part :: parts) = part.meaning.followedBy (Part.meaningOfAll parts) := rfl

theorem Part.meaningOfAll_singleton (part : Part) :
    Part.meaningOfAll [part] = part.meaning :=
  Meaning.followedBy_nothing _

@[simp] theorem Part.meaningOfAll_append (first second : List Part) :
    Part.meaningOfAll (first ++ second) =
      (Part.meaningOfAll first).followedBy (Part.meaningOfAll second) := by
  simp [Part.meaningOfAll, Meaning.sequence_append]

/-- A move belongs to a meaning if all matches that begin with it are matches of the meaning. -/
def Move.Fits (place : Place) (meaning : Meaning) : Move → Prop
  | stop _ => ∀ after : List Char, after.head? = place.next → meaning place.atLineStart [] after
  | read set left => ∀ c word after, place.next = some c → set.contains c = true →
      Part.meaningOfAll left (c == '\n') word after → meaning place.atLineStart (c :: word) after

namespace Regex

variable {place : Place} {first second : Meaning}

private theorem Fits.imp {move : Move} (h : move.Fits place first)
    (himp : ∀ atLineStart word after, first atLineStart word after →
      second atLineStart word after) : move.Fits place second := by
  cases move with
  | stop passed => exact fun after hafter => himp _ _ _ (h after hafter)
  | read set left =>
    exact fun c word after hnext hset hleft => himp _ _ _ (h c word after hnext hset hleft)

private theorem continueWith_fit {andThen : List Nat → List Move} {after : List Part}
    {moves : List Move} (hmoves : ∀ move ∈ moves, move.Fits place first)
    (handThen : ∀ passed, ∀ move ∈ andThen passed, move.Fits place (Part.meaningOfAll after)) :
    ∀ move ∈ continueWith andThen after moves,
      move.Fits place (first.followedBy (Part.meaningOfAll after)) := by
  intro move hmove
  obtain ⟨origin, horigin, hmove⟩ := List.mem_flatMap.mp hmove
  have hfit := hmoves origin horigin
  cases origin with
  | stop passed =>
    -- The first of the two reads nothing, so that the word is one of the second.
    have hthen := handThen passed move hmove
    cases move with
    | stop _ =>
      intro text htext
      exact ⟨[], [], rfl, hfit text htext, hthen text htext⟩
    | read set left =>
      intro c word text hnext hset hleft
      exact ⟨[], c :: word, rfl, hfit _ hnext.symm, hthen c word text hnext hset hleft⟩
  | read set left =>
    -- What is left of the first is matched before the second one is.
    obtain rfl := List.mem_singleton.mp hmove
    intro c word text hnext hset hleft
    rw [Part.meaningOfAll_append] at hleft
    obtain ⟨here, there, rfl, hhere, hthere⟩ := hleft
    exact ⟨c :: here, there, rfl, hfit c here _ hnext hset hhere, hthere⟩

private theorem choose_fit {address : Nat} {greedy : Bool} {moves : List Nat → List Move}
    (hmoves : ∀ passed, ∀ move ∈ moves passed, move.Fits place first) (passed : List Nat) :
    ∀ move ∈ choose address greedy moves passed,
      move.Fits place (Meaning.nothing.either first) := by
  intro move hmove
  have hstop : (Move.stop (address :: passed)).Fits place (Meaning.nothing.either first) :=
    fun _ _ => Or.inl rfl
  have hother : move ∈ moves (address :: passed) → move.Fits place (Meaning.nothing.either first) :=
    fun h => Fits.imp (hmoves _ move h) fun _ _ _ => Or.inr
  unfold choose at hmove
  split at hmove
  · simp at hmove
  · have hmem := mem_of_mem_stopOnce hmove
    split at hmem
    · rcases List.mem_append.mp hmem with h | h
      · exact hother h
      · exact List.mem_singleton.mp h ▸ hstop
    · rcases List.mem_cons.mp hmem with rfl | h
      · exact hstop
      · exact hother h

section Loop

variable {address : Nat} {greedy : Bool} {body : Regex} {moves : List Nat → List Move}

private theorem againMoves_fit
    (hmoves : ∀ passed, ∀ move ∈ moves passed, move.Fits place body.meaning) (passed : List Nat) :
    ∀ move ∈ againMoves address greedy body moves passed,
      move.Fits place (body.meaning.repeated .zeroOrMore) := by
  rw [Meaning.repeated, Meaning.iterated_eq]
  apply choose_fit
  intro passed
  rw [← Meaning.followedBy_nothing (Meaning.repeated _ _)]
  exact continueWith_fit (hmoves passed) (by simp)

private theorem firstMoves_fit
    (hmoves : ∀ passed, ∀ move ∈ moves passed, move.Fits place body.meaning) (passed : List Nat) :
    ∀ move ∈ firstMoves address greedy body moves passed,
      move.Fits place (Meaning.Iterated body.meaning) := by
  have hmeaning : Meaning.Iterated body.meaning =
      body.meaning.followedBy (Part.meaningOfAll [.again address greedy body]) := by
    rw [Meaning.iterated_eq, Part.meaningOfAll_singleton]
    rfl
  rw [hmeaning]
  refine continueWith_fit (hmoves passed) ?_
  intro passed move hmove
  split at hmove
  · simp at hmove
  · obtain rfl := List.mem_singleton.mp hmove
    intro after _
    exact ⟨[], [], rfl, Or.inl rfl, rfl⟩

end Loop

/-- The moves of an expression belong to its meaning. -/
theorem moves_fit (regex : Regex) (address : Nat) (passed : List Nat) :
    ∀ move ∈ regex.moves place address passed, move.Fits place regex.meaning := by
  induction regex generalizing address passed with
  | empty =>
    intro move hmove
    obtain rfl := List.mem_singleton.mp hmove
    exact fun _ _ => rfl
  | chars set =>
    intro move hmove
    obtain rfl := List.mem_singleton.mp hmove
    rintro c word after - hset rfl
    exact ⟨c, hset, rfl⟩
  | lineStart =>
    intro move hmove
    rw [moves] at hmove
    split at hmove
    · next hstart =>
      obtain rfl := List.mem_singleton.mp hmove
      exact fun _ _ => ⟨hstart, rfl⟩
    · simp at hmove
  | notAhead set =>
    intro move hmove
    rw [moves] at hmove
    split at hmove
    · simp at hmove
    · next hnext =>
      obtain rfl := List.mem_singleton.mp hmove
      exact fun after hafter => ⟨by simpa [hafter] using hnext, rfl⟩
  | group captures body ih => exact ih _ _
  | cat first rest ihfirst ihrest =>
    rw [meaning, ← Meaning.followedBy_nothing rest.meaning]
    exact continueWith_fit (ihfirst _ _) fun passed => by
      simpa [Part.meaningOfAll, Part.meaning] using ihrest (2 * address + 1) passed
  | alt first rest ihfirst ihrest =>
    intro move hmove
    rw [moves] at hmove
    split at hmove
    · simp at hmove
    · rcases List.mem_append.mp (mem_of_mem_stopOnce hmove) with h | h
      · exact Fits.imp (ihfirst _ _ move h) fun _ _ _ => Or.inl
      · exact Fits.imp (ihrest _ _ move h) fun _ _ _ => Or.inr
  | loop times greedy body ih =>
    cases times with
    | optional => exact choose_fit (ih _) passed
    | oneOrMore => exact firstMoves_fit (ih _) passed
    | zeroOrMore =>
      -- How the loop is matched depends on whether its body can be empty.
      rw [moves]
      split
      · exact choose_fit (firstMoves_fit (ih _)) passed
      · exact againMoves_fit (ih _) passed

/-- The moves of a part belong to its meaning. -/
theorem part_moves_fit (part : Part) (passed : List Nat) :
    ∀ move ∈ part.moves place passed, move.Fits place part.meaning := by
  cases part with
  | whole address regex => exact moves_fit regex address passed
  | again address greedy body => exact againMoves_fit (moves_fit body _) passed

/-- The moves of several parts belong to their meaning. -/
theorem movesOfAll_fit (parts : List Part) (passed : List Nat) :
    ∀ move ∈ Part.movesOfAll place parts passed, move.Fits place (Part.meaningOfAll parts) := by
  induction parts generalizing passed with
  | nil =>
    intro move hmove
    obtain rfl := List.mem_singleton.mp hmove
    exact fun _ _ => rfl
  | cons part parts ih => exact continueWith_fit (part_moves_fit part passed) ih

/-- Every ending ends a match. -/
theorem meaning_of_mem_endings {parts : List Part} {atLineStart : Bool} {text : List Char}
    {length : Nat} (h : length ∈ endings parts atLineStart text) :
    length ≤ text.length ∧
      Part.meaningOfAll parts atLineStart (text.take length) (text.drop length) := by
  -- Each character is read by a move, and the word after it is one of the parts that are left then.
  induction text generalizing parts atLineStart length with
  | nil =>
    obtain ⟨move, hmove, hlength⟩ := List.mem_flatMap.mp h
    have hfit := movesOfAll_fit parts [] move hmove
    cases move with
    | stop passed =>
      obtain rfl := List.mem_singleton.mp hlength
      exact ⟨Nat.le_refl 0, hfit [] rfl⟩
    | read set left => simp [Move.endings] at hlength
  | cons c text ih =>
    obtain ⟨move, hmove, hlength⟩ := List.mem_flatMap.mp h
    have hfit := movesOfAll_fit parts [] move hmove
    cases move with
    | stop passed =>
      obtain rfl := List.mem_singleton.mp hlength
      exact ⟨Nat.zero_le _, hfit (c :: text) rfl⟩
    | read set left =>
      simp only [Move.endings, Option.any_some] at hlength
      split at hlength
      · next hset =>
        obtain ⟨more, hmore, rfl⟩ := List.mem_map.mp hlength
        obtain ⟨hle, hmeaning⟩ := ih hmore
        exact ⟨Nat.succ_le_succ hle, hfit c _ _ rfl hset hmeaning⟩
      · simp at hlength

end Regex

end MotifSearch
