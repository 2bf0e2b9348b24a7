import MotifSearch.Proofs.Corpus.Ids

/-!
# Ids without gaps

As long as nothing but additions makes up a corpus, its ids count its scores from zero. The number
of the scores is then the id that is after the highest one, so it does not matter which of the two a
new score is given. Both run out at the same time.

## Main definitions

* `Corpus.IsDense` — the ids count the scores

## Main results

* `IsDense.nextId_eq`, `IsDense.add_eq` — the next id is the number of scores
* `IsDense.scores_after` — what additions make of such a corpus
-/

namespace MotifSearch.Corpus

/-- Whether the ids of a corpus count its scores, from zero on. -/
structure IsDense (corpus : Corpus) : Prop where
  ids : corpus.scores.map (·.id.toNat) = List.range corpus.size
  size_le : corpus.size ≤ UInt32.size

variable {corpus : Corpus}

theorem isDense_empty : empty.IsDense :=
  ⟨rfl, Nat.zero_le _⟩

theorem size_append (score : Score) : size ⟨corpus.scores ++ [score]⟩ = corpus.size + 1 :=
  List.length_append

namespace IsDense

/-- The next id is the number of scores. -/
theorem nextId_eq (h : corpus.IsDense) :
    corpus.nextId = if corpus.size < UInt32.size then some (.ofNat corpus.size) else none := by
  rw [nextId, h.ids]
  cases hsize : corpus.size with
  | zero => rfl
  | succ size =>
    -- The numbers up to the last one have it as their maximum.
    have hmax : (List.range (size + 1)).max? = some size := by
      refine List.max?_eq_some_iff.mpr ⟨List.self_mem_range_succ, fun other hother => ?_⟩
      exact Nat.le_of_lt_succ (List.mem_range.mp hother)
    rw [hmax]

/-- One more score with this id leaves no gap. -/
theorem append (h : corpus.IsDense) (hsize : corpus.size < UInt32.size) (title kern : List Char) :
    IsDense ⟨corpus.scores ++ [⟨.ofNat corpus.size, title, kern⟩]⟩ := by
  constructor
  · rw [size_append, List.range_succ, List.map_append, h.ids]
    simp [UInt32.toNat_ofNat_of_lt' hsize]
  · rwa [size_append]

theorem snd_respond (h : corpus.IsDense) (hsize : corpus.size < UInt32.size)
    (title kern : List Char) : (corpus.respond title kern).2 =
      ⟨corpus.scores ++ [⟨.ofNat corpus.size, title, kern⟩]⟩ :=
  snd_respond_of_some (h.nextId_eq.trans (if_pos hsize))

theorem snd_respond_of_full (h : corpus.IsDense) (hsize : ¬ corpus.size < UInt32.size)
    (title kern : List Char) : (corpus.respond title kern).2 = corpus :=
  snd_respond_of_none (fst_respond.trans (h.nextId_eq.trans (if_neg hsize)))

/-- An addition answers with the number of scores, as long as this is an id. -/
theorem add_eq (h : corpus.IsDense) (title kern : List Char) :
    corpus.add title kern =
      if corpus.size < UInt32.size then
        some (.ofNat corpus.size, ⟨corpus.scores ++ [⟨.ofNat corpus.size, title, kern⟩]⟩)
      else none := by
  rw [add, h.nextId_eq]
  split <;> rfl

/-- No addition leaves a gap. -/
theorem respond (h : corpus.IsDense) (title kern : List Char) :
    (corpus.respond title kern).2.IsDense := by
  by_cases hsize : corpus.size < UInt32.size
  · rw [h.snd_respond hsize]
    exact h.append hsize title kern
  · rwa [h.snd_respond_of_full hsize]

theorem after (h : corpus.IsDense) (additions : List (List Char × List Char)) :
    (corpus.after additions).IsDense := by
  induction additions generalizing corpus with
  | nil => exact h
  | cons added additions ih => exact ih (h.respond added.1 added.2)

/-- Additions append scores with the next numbers, until there are no more ids. -/
theorem scores_after (h : corpus.IsDense) (additions : List (List Char × List Char)) :
    (corpus.after additions).scores = corpus.scores ++
      (additions.take (UInt32.size - corpus.size)).mapIdx fun i added =>
        ⟨.ofNat (corpus.size + i), added.1, added.2⟩ := by
  induction additions generalizing corpus with
  | nil => simp [Corpus.after]
  | cons added additions ih =>
    change ((corpus.respond added.1 added.2).2.after additions).scores = _
    by_cases hsize : corpus.size < UInt32.size
    · -- The first addition takes the first number, and the others count on from there.
      have hleft : UInt32.size - corpus.size = UInt32.size - (corpus.size + 1) + 1 := by omega
      rw [h.snd_respond hsize, ih (h.append hsize _ _), size_append, hleft, List.take_succ_cons,
        List.mapIdx_cons, List.append_assoc, List.singleton_append]
      simp only [Nat.add_zero, Nat.add_assoc, Nat.add_comm 1]
    · have hleft : UInt32.size - corpus.size = 0 := by omega
      rw [h.snd_respond_of_full hsize, ih h, hleft, List.take_zero, List.take_zero]

end IsDense

/-- Additions to the empty corpus give their scores the numbers from zero on. -/
theorem scores_after_empty (additions : List (List Char × List Char)) :
    (empty.after additions).scores =
      (additions.take UInt32.size).mapIdx fun i added => ⟨.ofNat i, added.1, added.2⟩ := by
  have hcount : ∀ i, empty.size + i = i := Nat.zero_add
  rw [isDense_empty.scores_after]
  simp only [hcount]
  rfl

end MotifSearch.Corpus
