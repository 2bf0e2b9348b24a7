import MotifSearch.Corpus.Basic

/-!
# Ids of added scores

A new score gets the id after the highest one in use. Ids need not be in order, and some may be
given twice, where scores were not added one by one; but a new id is larger than all of them, so
what is found by an id does not change any more. Only once the largest id is in use nothing can be
added.

An addition is taken as a program here, which looks up and changes the corpus step by step, so that
it can be said of a corpus what an addition that fails leaves of it.

## Main definitions

* `Corpus.addition` — an addition as a program
* `Corpus.respond`, `Corpus.after` — what comes of an addition, and of several ones
* `Corpus.Extends` — more scores after those of a corpus, with larger and larger ids

## Main results

* `add_eq_respond` — the program does what `Corpus.add` does
* `extends_after` — additions extend a corpus
* `ids_never_reused` — an id belongs to one score for good
-/

namespace MotifSearch.Corpus

/-- The largest id. -/
def maxId : UInt32 := .ofNat (UInt32.size - 1)

/-- An addition. The corpus is changed last, once there is an id. -/
def addition (title kern : List Char) : StateM Corpus (Option UInt32) := do
  let corpus ← MonadState.get
  match corpus.nextId with
  | none => return none
  | some id =>
    set (Corpus.mk (corpus.scores ++ [⟨id, title, kern⟩]))
    return some id

/-- The answer to an addition, and the corpus after it. -/
def respond (title kern : List Char) (corpus : Corpus) : Option UInt32 × Corpus :=
  ((addition title kern).run corpus).run

/-- The corpus after some additions, each given by a title and a kern text. -/
def after (corpus : Corpus) (additions : List (List Char × List Char)) : Corpus :=
  additions.foldl (fun corpus added => (respond added.1 added.2 corpus).2) corpus

variable {corpus later last : Corpus} {title kern : List Char} {id : UInt32}

/-- There is no next id if the largest one is in use. -/
theorem nextId_eq_none_iff : corpus.nextId = none ↔ ∃ score ∈ corpus.scores, score.id = maxId := by
  have hmax : maxId.toNat + 1 = UInt32.size := rfl
  rw [nextId]
  cases hhighest : (corpus.scores.map fun score => score.id.toNat).max? with
  | none =>
    have hnil : corpus.scores = [] := by simpa using hhighest
    simp [hnil]
  | some highest =>
    obtain ⟨hmem, hle⟩ := List.max?_eq_some_iff.mp hhighest
    obtain ⟨score, hscore, heq⟩ := List.mem_map.mp hmem
    have hlt : score.id.toNat < UInt32.size := score.id.toNat_lt
    constructor
    -- Every id is below the size, so one that leaves no next id is the last one below it.
    · intro h
      have hsize : ¬ highest + 1 < UInt32.size := fun hsize => by
        simp [hsize] at h
      exact ⟨score, hscore, UInt32.toNat_inj.mp (by omega)⟩
    · rintro ⟨other, hother, hid⟩
      have hbound := hle _ (List.mem_map_of_mem hother)
      rw [hid] at hbound
      exact if_neg (by omega)

/-- The next id is larger than all ids in use. -/
theorem lt_of_nextId (h : corpus.nextId = some id) : ∀ score ∈ corpus.scores, score.id < id := by
  intro score hscore
  rw [nextId] at h
  cases hhighest : (corpus.scores.map fun score => score.id.toNat).max? with
  | none =>
    have hnil : corpus.scores = [] := by simpa using hhighest
    rw [hnil] at hscore
    cases hscore
  | some highest =>
    have hle := (List.max?_eq_some_iff.mp hhighest).2 _ (List.mem_map_of_mem hscore)
    rw [hhighest] at h
    dsimp only at h
    split at h
    · next hsize =>
      cases h
      rw [UInt32.lt_iff_toNat_lt, UInt32.toNat_ofNat_of_lt' hsize]
      omega
    · cases h

/-- What comes of an addition. -/
theorem respond_eq : respond title kern corpus = match corpus.nextId with
    | none => (none, corpus)
    | some id => (some id, ⟨corpus.scores ++ [⟨id, title, kern⟩]⟩) := by
  rw [respond, addition]
  cases hid : corpus.nextId <;> simp [hid]

/-- An addition answers and changes the corpus as `add` does. -/
theorem add_eq_respond : corpus.add title kern =
    (respond title kern corpus).1.map fun id => (id, (respond title kern corpus).2) := by
  rw [respond_eq, add]
  cases corpus.nextId <;> rfl

/-- An addition that fails leaves the corpus as it is. -/
theorem snd_respond_of_none (h : (respond title kern corpus).1 = none) :
    (respond title kern corpus).2 = corpus := by
  rw [respond_eq] at h ⊢
  cases hid : corpus.nextId with
  | none => rfl
  | some id =>
    rw [hid] at h
    cases h

theorem fst_respond : (respond title kern corpus).1 = corpus.nextId := by
  rw [respond_eq]
  cases corpus.nextId <;> rfl

theorem snd_respond_of_some (h : corpus.nextId = some id) :
    (respond title kern corpus).2 = ⟨corpus.scores ++ [⟨id, title, kern⟩]⟩ := by
  rw [respond_eq, h]

/-- More scores after those of a corpus, with larger and larger ids. -/
def Extends (corpus later : Corpus) : Prop :=
  ∃ added, later.scores = corpus.scores ++ added ∧ added.Pairwise (·.id < ·.id) ∧
    ∀ score ∈ corpus.scores, ∀ new ∈ added, score.id < new.id

namespace Extends

theorem refl (corpus : Corpus) : corpus.Extends corpus :=
  ⟨[], by simp, .nil, by simp⟩

theorem trans (h : corpus.Extends later) (hlater : later.Extends last) : corpus.Extends last := by
  obtain ⟨first, hfirst, hfirstOrder, hfirstNew⟩ := h
  obtain ⟨second, hsecond, hsecondOrder, hsecondNew⟩ := hlater
  rw [hfirst] at hsecond hsecondNew
  refine ⟨first ++ second, by rw [hsecond, List.append_assoc], ?_, fun score hscore new hnew => ?_⟩
  · exact List.pairwise_append.mpr ⟨hfirstOrder, hsecondOrder, fun score hscore =>
      hsecondNew score (List.mem_append_right _ hscore)⟩
  · rcases List.mem_append.mp hnew with hnew | hnew
    · exact hfirstNew score hscore new hnew
    · exact hsecondNew score (List.mem_append_left _ hscore) new hnew

/-- An addition extends a corpus. -/
theorem respond (corpus : Corpus) (title kern : List Char) :
    corpus.Extends (respond title kern corpus).2 := by
  cases hid : corpus.nextId with
  | none =>
    rw [snd_respond_of_none (fst_respond.trans hid)]
    exact refl corpus
  | some id =>
    refine ⟨[⟨id, title, kern⟩], by rw [snd_respond_of_some hid], List.pairwise_singleton _ _,
      fun score hscore new hnew => ?_⟩
    obtain rfl := List.mem_singleton.mp hnew
    exact lt_of_nextId hid score hscore

/-- The scores of a corpus stay where they are. -/
theorem isPrefix (h : corpus.Extends later) : corpus.scores <+: later.scores := by
  obtain ⟨added, hadded, -⟩ := h
  exact ⟨added, hadded.symm⟩

/-- What is found by an id that is in use is found later on. -/
theorem get_eq (h : corpus.Extends later) (hid : ∃ score ∈ corpus.scores, score.id = id) :
    later.get id = corpus.get id := by
  obtain ⟨added, hadded, -⟩ := h
  obtain ⟨score, hscore, rfl⟩ := hid
  have hfound : (corpus.scores.find? fun other => other.id == score.id).isSome = true :=
    List.find?_isSome.mpr ⟨score, hscore, beq_self_eq_true _⟩
  -- The first score with an id is found, so what has been added after it does not matter.
  rw [get, hadded, List.find?_append, Option.or_of_isSome hfound]
  rfl

/-- Different ids stay different. -/
theorem nodup (h : corpus.Extends later) (hids : (corpus.scores.map Score.id).Nodup) :
    (later.scores.map Score.id).Nodup := by
  obtain ⟨added, hadded, horder, hnew⟩ := h
  have hdistinct : (added.map Score.id).Nodup :=
    List.pairwise_map.mpr (horder.imp fun hlt => (UInt32.ne_of_lt hlt))
  rw [hadded, List.map_append]
  refine List.nodup_append.mpr ⟨hids, hdistinct, fun id hold other hother => ?_⟩
  obtain ⟨score, hscore, rfl⟩ := List.mem_map.mp hold
  obtain ⟨new, hmem, rfl⟩ := List.mem_map.mp hother
  exact UInt32.ne_of_lt (hnew score hscore new hmem)

end Extends

/-- Additions extend a corpus. -/
theorem extends_after (corpus : Corpus) (additions : List (List Char × List Char)) :
    corpus.Extends (corpus.after additions) := by
  induction additions generalizing corpus with
  | nil => exact .refl corpus
  | cons added additions ih => exact (Extends.respond corpus added.1 added.2).trans (ih _)

/-- Among the scores with a new one after them, the new one is found by its id, and nothing else
changes. -/
theorem get_append (h : ∀ score ∈ corpus.scores, score.id < id) (other : UInt32) :
    get ⟨corpus.scores ++ [⟨id, title, kern⟩]⟩ other =
      if other = id then some ⟨id, title, kern⟩ else corpus.get other := by
  rw [get, List.find?_append]
  split
  · next heq =>
    subst heq
    have hnone : corpus.scores.find? (fun score => score.id == other) = none :=
      List.find?_eq_none.mpr fun score hscore => by simpa using UInt32.ne_of_lt (h score hscore)
    simp [hnone]
  · next hne => simp [get, Ne.symm hne]

/-- Whatever ids there are in a corpus, and whatever has been added to it: a new score gets an id
that is larger than all ids in use, unless the largest one is in use, and then nothing changes. The
new score is found by its id from then on, whatever is added later, and what is found by other ids
stays the same. Scores stay as and where they are, and ids stay different if they were different. -/
theorem ids_never_reused (corpus : Corpus) (additions : List (List Char × List Char)) :
    (∀ title kern,
      (corpus.after additions).add title kern =
        (respond title kern (corpus.after additions)).1.map
          (fun id => (id, (respond title kern (corpus.after additions)).2)) ∧
      ((respond title kern (corpus.after additions)).1 = none ↔
        ∃ score ∈ (corpus.after additions).scores, score.id = maxId) ∧
      ((respond title kern (corpus.after additions)).1 = none →
        (respond title kern (corpus.after additions)).2 = corpus.after additions) ∧
      ∀ id, (respond title kern (corpus.after additions)).1 = some id →
        (∀ score ∈ (corpus.after additions).scores, score.id < id) ∧
        (respond title kern (corpus.after additions)).2.scores =
          (corpus.after additions).scores ++ [⟨id, title, kern⟩] ∧
        (∀ further, ((respond title kern (corpus.after additions)).2.after further).get id =
          some ⟨id, title, kern⟩) ∧
        ∀ other ≠ id, (respond title kern (corpus.after additions)).2.get other =
          (corpus.after additions).get other) ∧
    corpus.scores <+: (corpus.after additions).scores ∧
    (∀ id, (∃ score ∈ corpus.scores, score.id = id) →
      (corpus.after additions).get id = corpus.get id) ∧
    ((corpus.scores.map Score.id).Nodup →
      ((corpus.after additions).scores.map Score.id).Nodup) := by
  have hextends := extends_after corpus additions
  refine ⟨fun title kern => ⟨add_eq_respond, ?_, snd_respond_of_none, fun id hid => ?_⟩,
    hextends.isPrefix, fun id => hextends.get_eq, hextends.nodup⟩
  · rw [fst_respond]
    exact nextId_eq_none_iff
  · rw [fst_respond] at hid
    have hlt := lt_of_nextId hid
    rw [snd_respond_of_some hid]
    refine ⟨hlt, rfl, fun further => ?_, fun other hother => ?_⟩
    · have hused : ∃ score ∈ (corpus.after additions).scores ++ [⟨id, title, kern⟩],
          score.id = id :=
        ⟨⟨id, title, kern⟩, by simp, rfl⟩
      rw [(extends_after _ further).get_eq hused, get_append hlt, if_pos rfl]
    · rw [get_append hlt, if_neg hother]

/-- Two scores that share an id, and one with a lower id after them. -/
def sharedId : Corpus := ⟨[⟨41, ['a'], []⟩, ⟨41, ['b'], []⟩, ⟨7, ['c'], []⟩]⟩

/-- A corpus in which the largest id is in use. -/
def full : Corpus := ⟨[⟨maxId, ['a'], []⟩, ⟨0, ['b'], []⟩]⟩

/-- After the shared id the next two ids are given, the second one for good; nothing is added after
the largest id. -/
theorem ids_never_reused_sharedId :
    (respond ['e'] [] (sharedId.after [(['d'], [])])).1 = some 43 ∧
    (∀ further, ((respond ['e'] [] (sharedId.after [(['d'], [])])).2.after further).get 43 =
      some ⟨43, ['e'], []⟩) ∧
    (respond ['c'] [] (full.after [])).1 = none ∧
    (respond ['c'] [] (full.after [])).2 = full.after [] := by
  obtain ⟨hstep, -⟩ := ids_never_reused sharedId [(['d'], [])]
  obtain ⟨-, -, -, hsome⟩ := hstep ['e'] []
  obtain ⟨hfull, -⟩ := ids_never_reused full []
  obtain ⟨-, hnone, hleft, -⟩ := hfull ['c'] []
  have hid : (respond ['e'] [] (sharedId.after [(['d'], [])])).1 = some 43 := by decide
  obtain ⟨-, -, hfound, -⟩ := hsome 43 hid
  have hfails := hnone.mpr ⟨⟨maxId, ['a'], []⟩, List.mem_cons_self, rfl⟩
  exact ⟨hid, hfound, hfails, hleft hfails⟩

end MotifSearch.Corpus
