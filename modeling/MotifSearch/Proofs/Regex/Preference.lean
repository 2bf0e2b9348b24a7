import MotifSearch.Proofs.Regex.Completeness

/-!
# What is preferred to the empty match

An empty match covers nothing and is not reported, so that it matters which matches are preferred to
it. Of an expression that can match the empty word wherever it stands, these are the words of a
meaning again: the choices that come before the one for the empty word are the same everywhere.

## Main definitions

* `Regex.preferring` — the words that an expression prefers to the empty one
* `Regex.Settled` — whether it can match the empty word is settled for an expression
* `Regex.beforeStop` — the moves before the first one that stops

## Main results

* `preferring_of_not_nullable` — all words of an expression that is never empty
* `accepts_beforeStop` — the moves before the first stop are those of the words that are preferred
* `preferring_of_preferredLength`, `exists_preferredLength_of_preferring` — the preferred match is
  not empty where a match is preferred to the empty one
-/

namespace MotifSearch.Regex

/-- The words that an expression prefers to the empty one. -/
def preferring : Regex → Meaning
  | empty | lineStart | notAhead _ => .never
  | chars set => (chars set).meaning
  | group _ body => body.preferring
  | loop .optional greedy body => if greedy then body.preferring else .never
  | loop .oneOrMore _ body => body.preferring.followedBy (body.meaning.repeated .zeroOrMore)
  | loop .zeroOrMore greedy body =>
    if greedy then body.preferring.followedBy (body.meaning.repeated .zeroOrMore) else .never
  | cat first rest =>
    if first.nullable && rest.nullable then
      (first.preferring.followedBy rest.meaning).either rest.preferring
    else first.meaning.followedBy rest.meaning
  | alt first rest =>
    if first.nullable then first.preferring else first.meaning.either rest.preferring

variable {regex : Regex} {atLineStart : Bool} {word after : List Char}

/-- Only an expression that can be empty matches the empty word. -/
theorem nullable_of_meaning_nil (h : regex.meaning atLineStart [] after) :
    regex.nullable = true := by
  induction regex generalizing atLineStart after with
  | empty | lineStart | notAhead => rfl
  | chars set =>
    obtain ⟨c, -, h⟩ := h
    cases h
  | group captures body ih => exact ih h
  | loop times greedy body ih =>
    cases times with
    | oneOrMore => exact ih h.nil_inv
    | optional | zeroOrMore => rfl
  | cat first rest ihfirst ihrest =>
    obtain ⟨hfirst, hrest⟩ := Meaning.followedBy_nil.mp h
    rw [nullable, ihfirst hfirst, ihrest hrest, Bool.and_self]
  | alt first rest ihfirst ihrest =>
    rw [nullable, Bool.or_eq_true]
    exact h.imp ihfirst ihrest

/-- Where a line begins and nothing follows, all that can be empty is. -/
theorem nullable_iff : regex.nullable = true ↔ regex.meaning true [] [] := by
  refine ⟨fun h => ?_, nullable_of_meaning_nil⟩
  induction regex with
  | empty => rfl
  | chars set => cases h
  | lineStart | notAhead => exact ⟨rfl, rfl⟩
  | group captures body ih => exact ih h
  | loop times greedy body ih =>
    cases times with
    | oneOrMore => exact .once (ih h)
    | optional | zeroOrMore => exact Or.inl rfl
  | cat first rest ihfirst ihrest =>
    obtain ⟨hfirst, hrest⟩ := Bool.and_eq_true_iff.mp h
    exact Meaning.followedBy_nil.mpr ⟨ihfirst hfirst, ihrest hrest⟩
  | alt first rest ihfirst ihrest =>
    exact (Bool.or_eq_true_iff.mp h).imp ihfirst ihrest

/-- An expression that is never empty prefers all its words to the empty one. -/
theorem preferring_of_not_nullable (h : regex.nullable = false) :
    regex.preferring = regex.meaning := by
  induction regex with
  | empty | lineStart | notAhead => cases h
  | chars set => rfl
  | group captures body ih => exact ih h
  | loop times greedy body ih =>
    cases times with
    | oneOrMore => rw [preferring, ih h, meaning, Meaning.repeated, ← Meaning.iterated_eq]
    | optional | zeroOrMore => cases h
  | cat first rest _ _ =>
    rw [nullable] at h
    rw [preferring, h]
    rfl
  | alt first rest _ ihrest =>
    rw [nullable, Bool.or_eq_false_iff] at h
    rw [preferring, h.1, ihrest h.2]
    rfl

/-- No expression prefers the empty word to itself. -/
theorem not_preferring_nil (regex : Regex) : ¬ regex.preferring atLineStart [] after := by
  induction regex generalizing atLineStart after with
  | empty | lineStart | notAhead => exact id
  | chars set =>
    rintro ⟨c, -, h⟩
    cases h
  | group captures body ih => exact ih
  | loop times greedy body ih =>
    have hiterated : ¬ (body.preferring.followedBy (body.meaning.repeated .zeroOrMore))
        atLineStart [] after := fun h => ih (Meaning.followedBy_nil.mp h).1
    cases times with
    | oneOrMore => exact hiterated
    | optional =>
      rw [preferring]
      split
      · exact ih
      · exact id
    | zeroOrMore =>
      rw [preferring]
      split
      · exact hiterated
      · exact id
  | cat first rest ihfirst ihrest =>
    rw [preferring]
    split
    · rintro (h | h)
      · exact ihfirst (Meaning.followedBy_nil.mp h).1
      · exact ihrest h
    · next hnullable =>
      intro h
      have hmeaning : (cat first rest).meaning atLineStart [] after := h
      exact hnullable (nullable_of_meaning_nil hmeaning)
  | alt first rest ihfirst ihrest =>
    rw [preferring]
    split
    · exact ihfirst
    · next hnullable =>
      rintro (h | h)
      · exact hnullable (nullable_of_meaning_nil h)
      · exact ihrest h

/-- An expression for which it is settled whether it can match the empty word. Either it cannot, or
it can do so wherever it stands, because it is put together from brackets without assertions. -/
inductive Settled : Regex → Prop
  | solid {regex : Regex} (h : regex.nullable = false) : Settled regex
  | empty : Settled empty
  | group {body : Regex} (hbody : Settled body) : Settled (group true body)
  | loop {times : Repeat} {greedy : Bool} {body : Regex} (hbody : Settled body) :
      Settled (loop times greedy (group true body))
  | cat {first rest : Regex} (hfirst : Settled first) (hrest : Settled rest)
      (haltFirst : first.isAlt = false) (haltRest : rest.isAlt = false) :
      Settled (cat first rest)
  | alt {first rest : Regex} (hfirst : Settled first) (hrest : Settled rest) :
      Settled (alt first rest)

/-- What is settled and can be empty matches the empty word wherever it stands. -/
theorem Settled.meaning_nil (h : Settled regex) (hnullable : regex.nullable = true) :
    regex.meaning atLineStart [] after := by
  induction h with
  | solid h => exact absurd hnullable (by simp [h])
  | empty => rfl
  | group _ ih => exact ih hnullable
  | @loop times greedy body _ ih =>
    cases times with
    | oneOrMore => exact .once (ih hnullable)
    | optional | zeroOrMore => exact Or.inl rfl
  | cat _ _ _ _ ihfirst ihrest =>
    rw [nullable, Bool.and_eq_true] at hnullable
    exact Meaning.followedBy_nil.mpr ⟨ihfirst hnullable.1, ihrest hnullable.2⟩
  | alt _ _ ihfirst ihrest =>
    rw [nullable, Bool.or_eq_true] at hnullable
    exact hnullable.imp ihfirst ihrest

/-- The moves before the first one that stops. -/
def beforeStop (moves : List Move) : List Move :=
  moves.takeWhile (!·.isStop)

section Moves

variable {moves others : List Move} {andThen : List Nat → List Move} {rest : List Part} {c : Char}

theorem not_stops_nil : ¬ Stops [] := by
  simp [Stops]

theorem stops_cons {move : Move} : Stops (move :: moves) ↔ move.isStop = true ∨ Stops moves := by
  cases move <;> simp [Stops, Move.isStop]

theorem not_stops_beforeStop (moves : List Move) : ¬ Stops (beforeStop moves) := by
  rintro ⟨passed, hpassed⟩
  have hall := List.all_eq_true.mp (List.all_takeWhile (p := (!·.isStop)) (l := moves))
  exact absurd (hall _ hpassed) (by simp [Move.isStop])

/-- Moves that stop are those before the first stop, that stop, and others. -/
theorem exists_eq_beforeStop_append (h : Stops moves) :
    ∃ passed others, moves = beforeStop moves ++ .stop passed :: others := by
  induction moves with
  | nil => exact absurd h not_stops_nil
  | cons move moves ih =>
    cases move with
    | stop passed => exact ⟨passed, moves, rfl⟩
    | read set left =>
      obtain ⟨passed, others, heq⟩ := ih ((stops_cons.mp h).resolve_left (by simp [Move.isStop]))
      exact ⟨passed, others, congrArg (Move.read set left :: ·) heq⟩

theorem beforeStop_append_of_stops (h : Stops moves) :
    beforeStop (moves ++ others) = beforeStop moves := by
  induction moves with
  | nil => exact absurd h not_stops_nil
  | cons move moves ih =>
    cases move with
    | stop passed => rfl
    | read set left =>
      have hrest := ih ((stops_cons.mp h).resolve_left (by simp [Move.isStop]))
      exact congrArg (Move.read set left :: ·) hrest

theorem beforeStop_append_of_not_stops (h : ¬ Stops moves) :
    beforeStop (moves ++ others) = moves ++ beforeStop others := by
  rw [beforeStop, List.takeWhile_append_of_pos]
  · rfl
  · intro move hmove
    cases move with
    | stop passed => exact absurd ⟨passed, hmove⟩ h
    | read set left => rfl

theorem beforeStop_of_not_stops (h : ¬ Stops moves) : beforeStop moves = moves := by
  rw [← List.append_nil moves, beforeStop_append_of_not_stops h]
  rfl

@[simp] theorem beforeStop_stopOnce (moves : List Move) :
    beforeStop (stopOnce moves) = beforeStop moves := by
  induction moves with
  | nil => rfl
  | cons move moves ih =>
    cases move with
    | stop passed => rfl
    | read set left => exact congrArg (Move.read set left :: ·) ih

@[simp] theorem beforeStop_stop_cons (passed : List Nat) :
    beforeStop (.stop passed :: moves) = [] := rfl

theorem not_stops_continueWith (h : ¬ Stops moves) : ¬ Stops (continueWith andThen rest moves) := by
  rintro ⟨stopped, hstopped⟩
  obtain ⟨passed, hpassed, -⟩ := stop_mem_continueWith.mp hstopped
  exact h ⟨passed, hpassed⟩

theorem accepts_append :
    Accepts (moves ++ others) c word after ↔
      Accepts moves c word after ∨ Accepts others c word after := by
  simp only [Accepts, List.mem_append, or_and_right, exists_or]

/-- Moves that do not stop, with other parts after them. -/
theorem accepts_continueWith_iff (h : ¬ Stops moves) :
    Accepts (continueWith andThen rest moves) c word after ↔
      ∃ here there, word = here ++ there ∧ Accepts moves c here (there ++ after) ∧
        Part.meaningOfAll rest (lineStartAfter (c == '\n') here) there after := by
  constructor
  · rintro ⟨set, left, hmove, hset, hleft⟩
    rcases read_mem_continueWith.mp hmove with ⟨more, hmore, rfl⟩ | ⟨passed, hpassed, -⟩
    · rw [Part.meaningOfAll_append] at hleft
      obtain ⟨here, there, rfl, hhere, hthere⟩ := hleft
      exact ⟨here, there, rfl, ⟨set, more, hmore, hset, hhere⟩, hthere⟩
    · exact absurd ⟨passed, hpassed⟩ h
  · rintro ⟨here, there, rfl, hhere, hthere⟩
    exact accepts_continueWith_of_left hhere hthere

/-- What goes on after the first stop comes after what is read before it. -/
theorem beforeStop_continueWith {passed : List Nat}
    (hmoves : moves = beforeStop moves ++ .stop passed :: others)
    (hstops : Stops (andThen passed)) :
    beforeStop (continueWith andThen rest moves) =
      continueWith andThen rest (beforeStop moves) ++ beforeStop (andThen passed) := by
  have hsplit : continueWith andThen rest moves = continueWith andThen rest (beforeStop moves) ++
      (andThen passed ++ continueWith andThen rest others) := by
    conv => lhs; rw [hmoves]
    rw [continueWith, List.flatMap_append, List.flatMap_cons]
    rfl
  rw [hsplit, beforeStop_append_of_not_stops (not_stops_continueWith (not_stops_beforeStop moves)),
    beforeStop_append_of_stops hstops]

/-- Stopping after each of the moves that stop changes nothing before the first stop. -/
theorem beforeStop_continueWith_stop
    (h : ∀ passed, .stop passed ∈ moves → ∃ stopped, andThen passed = [.stop stopped]) :
    beforeStop (continueWith andThen rest moves) =
      continueWith andThen rest (beforeStop moves) := by
  by_cases hstops : Stops moves
  · obtain ⟨passed, others, heq⟩ := exists_eq_beforeStop_append hstops
    have hpassed : .stop passed ∈ moves := heq ▸ List.mem_append_right _ List.mem_cons_self
    obtain ⟨stopped, hstopped⟩ := h passed hpassed
    have hthen : Stops (andThen passed) := ⟨stopped, hstopped ▸ List.mem_cons_self⟩
    rw [beforeStop_continueWith heq hthen, hstopped, beforeStop_stop_cons, List.append_nil]
  · rw [beforeStop_of_not_stops hstops, beforeStop_of_not_stops (not_stops_continueWith hstops)]

/-- What a greedy choice reads is read before it stops, and a lazy one stops right away. -/
theorem beforeStop_choose {address : Nat} {greedy : Bool} {inner : List Nat → List Move}
    {passed : List Nat} (h : address ∉ passed) :
    beforeStop (choose address greedy inner passed) =
      if greedy then beforeStop (inner (address :: passed)) else [] := by
  rw [choose, if_neg h, beforeStop_stopOnce]
  cases greedy with
  | false => rfl
  | true =>
    by_cases hstops : Stops (inner (address :: passed))
    · exact beforeStop_append_of_stops hstops
    · exact (beforeStop_append_of_not_stops hstops).trans
        ((List.append_nil _).trans (beforeStop_of_not_stops hstops).symm)

end Moves

section Accepts

variable {place : Place} {address : Nat} {passed : List Nat} {c : Char}

theorem not_stops_of_not_nullable (h : regex.nullable = false) :
    ¬ Stops (regex.moves place address passed) := by
  rintro ⟨stopped, hstopped⟩
  have hnext : (place.next.toList).head? = place.next := by cases place.next <;> rfl
  have hnil := moves_fit regex address passed _ hstopped _ hnext
  rw [nullable_of_meaning_nil hnil] at h
  cases h

theorem Settled.stops (h : Settled regex) (hnullable : regex.nullable = true) (hpos : 0 < address)
    (hfresh : Fresh address passed) : Stops (regex.moves place address passed) := by
  have hnext : (place.next.toList).head? = place.next := by cases place.next <;> rfl
  exact stops_of_meaning hpos hfresh hnext (h.meaning_nil hnullable)

/-- Where no choice has been passed, the words that begin with a move are those that match. -/
theorem accepts_moves_iff (hpos : 0 < address) (hfresh : Fresh address passed)
    (hnext : place.next = some c) : Accepts (regex.moves place address passed) c word after ↔
      regex.meaning place.atLineStart (c :: word) after := by
  constructor
  · rintro ⟨set, left, hmove, hset, hleft⟩
    exact moves_fit regex address passed _ hmove c word after hnext hset hleft
  · exact moves_complete hpos hfresh hnext

/-- One word that is not empty, and then another one. -/
private theorem followedBy_cons_of_not_nil {first second : Meaning}
    (h : ∀ after, ¬ first atLineStart [] after) :
    first.followedBy second atLineStart (c :: word) after ↔
      ∃ here there, word = here ++ there ∧ first atLineStart (c :: here) (there ++ after) ∧
        second (lineStartAfter (c == '\n') here) there after := by
  rw [Meaning.followedBy_cons, or_iff_right fun hnil => h _ hnil.1]

private theorem accepts_beforeStop_of_not_nullable (h : regex.nullable = false)
    (hpos : 0 < address) (hfresh : Fresh address passed) (hnext : place.next = some c) :
    Accepts (beforeStop (regex.moves place address passed)) c word after ↔
      regex.preferring place.atLineStart (c :: word) after := by
  rw [beforeStop_of_not_stops (not_stops_of_not_nullable h), preferring_of_not_nullable h]
  exact accepts_moves_iff hpos hfresh hnext

section Loop

variable {body : Regex} {greedy : Bool}
variable (hbody : ∀ {passed : List Nat} {word after : List Char}, Fresh (2 * address) passed →
  (Accepts (beforeStop (body.moves place (2 * address) passed)) c word after ↔
    body.preferring place.atLineStart (c :: word) after))
include hbody

/-- Where an iteration that reads nothing ends the loop, what is read before that is one iteration
that is preferred to the empty one, and then any number of them. -/
private theorem accepts_iterations {ended : List Nat → List Move}
    (hfresh : Fresh (2 * address) passed)
    (hended : ∀ stopped, .stop stopped ∈ body.moves place (2 * address) passed →
      ∃ more, ended stopped = [.stop more]) :
    Accepts (beforeStop (continueWith ended [.again address greedy body]
        (body.moves place (2 * address) passed))) c word after ↔
      (body.preferring.followedBy (body.meaning.repeated .zeroOrMore)) place.atLineStart
        (c :: word) after := by
  rw [beforeStop_continueWith_stop hended, accepts_continueWith_iff (not_stops_beforeStop _),
    followedBy_cons_of_not_nil fun _ => not_preferring_nil body]
  simp only [Part.meaningOfAll_singleton, Part.meaning, hbody hfresh]

private theorem accepts_beforeStop_firstMoves (hpos : 0 < address)
    (hfresh : Fresh (2 * address) passed) (hfree : 2 * address + 1 ∉ passed) :
    Accepts (beforeStop (firstMoves address greedy body (body.moves place (2 * address)) passed))
        c word after ↔
      (body.preferring.followedBy (body.meaning.repeated .zeroOrMore)) place.atLineStart
        (c :: word) after := by
  refine accepts_iterations hbody hfresh fun stopped hstopped => ?_
  have hnot : 2 * address + 1 ∉ stopped := by
    intro hmem
    rcases passed_below hstopped _ hmem with hmem | hbelow
    · exact hfree hmem
    · exact Below.disjoint hpos hbelow (Below.refl _)
  exact ⟨_, if_neg hnot⟩

private theorem accepts_beforeStop_loop {times : Repeat} (hpos : 0 < address)
    (hfresh : Fresh address passed) :
    Accepts (beforeStop ((loop times greedy body).moves place address passed)) c word after ↔
      (loop times greedy body).preferring place.atLineStart (c :: word) after := by
  have hleft := hfresh.left.cons (not_below_left hpos)
  have hright := hfresh.right.cons (not_below_right hpos)
  cases times with
  | optional =>
    rw [moves, beforeStop_choose hfresh.not_mem, preferring]
    cases greedy with
    | false => simp [Accepts, Meaning.never]
    | true => exact hbody hleft
  | oneOrMore => exact accepts_beforeStop_firstMoves hbody hpos hfresh.left hfresh.right.not_mem
  | zeroOrMore =>
    rw [moves, preferring]
    split
    · rw [beforeStop_choose hfresh.not_mem]
      cases greedy with
      | false => simp [Accepts, Meaning.never]
      | true => exact accepts_beforeStop_firstMoves hbody hpos hleft hright.not_mem
    · next hnullable =>
      rw [againMoves, beforeStop_choose hfresh.right.not_mem]
      cases greedy with
      | false => simp [Accepts, Meaning.never]
      | true =>
        have hown : Fresh (2 * address) ((2 * address + 1) :: passed) :=
          hfresh.left.cons fun hbelow => Below.disjoint hpos hbelow (Below.refl _)
        refine accepts_iterations hbody hown fun stopped hstopped => ?_
        rw [Bool.not_eq_true] at hnullable
        exact absurd ⟨stopped, hstopped⟩ (not_stops_of_not_nullable hnullable)

end Loop

/-- The moves before the first stop are those of the words that are preferred. -/
theorem accepts_beforeStop (h : Settled regex) (hpos : 0 < address) (hfresh : Fresh address passed)
    (hnext : place.next = some c) :
    Accepts (beforeStop (regex.moves place address passed)) c word after ↔
      regex.preferring place.atLineStart (c :: word) after := by
  induction h generalizing address passed word after with
  | solid h => exact accepts_beforeStop_of_not_nullable h hpos hfresh hnext
  | empty => simp [moves, preferring, Accepts, Meaning.never]
  | group _ ih => exact ih (by omega) hfresh.left
  | @loop times greedy body _ ih =>
    have hbody : ∀ {passed : List Nat} {word after : List Char}, Fresh (2 * address) passed →
        (Accepts (beforeStop ((group true body).moves place (2 * address) passed)) c word after ↔
          (group true body).preferring place.atLineStart (c :: word) after) :=
      fun hfresh => ih (by omega) hfresh.left
    exact accepts_beforeStop_loop hbody hpos hfresh
  | @cat first rest hfirst hrest _ _ ihfirst ihrest =>
    cases hnullable : (cat first rest).nullable with
    | false => exact accepts_beforeStop_of_not_nullable hnullable hpos hfresh hnext
    | true =>
      -- Both can be empty: the first one reads before it stops, and then the rest does.
      obtain ⟨hnullableFirst, hnullableRest⟩ := Bool.and_eq_true_iff.mp hnullable
      have hstops : Stops (first.moves place (2 * address) passed) :=
        hfirst.stops hnullableFirst (by omega) hfresh.left
      obtain ⟨between, others, heq⟩ := exists_eq_beforeStop_append hstops
      have hbetween := passed_below (heq ▸ List.mem_append_right _ List.mem_cons_self)
      have hright := hfresh.right_of_left hpos hbetween
      rw [moves, beforeStop_continueWith heq (hrest.stops hnullableRest (by omega) hright),
        accepts_append, accepts_continueWith_iff (not_stops_beforeStop _), ihrest (by omega) hright,
        preferring, hnullableFirst, hnullableRest, Bool.and_self, if_pos rfl, Meaning.either,
        followedBy_cons_of_not_nil fun _ => not_preferring_nil first]
      simp only [Part.meaningOfAll_singleton, Part.meaning, ihfirst (by omega) hfresh.left]
  | @alt first rest hfirst hrest ihfirst ihrest =>
    have hleft := hfresh.left.cons (not_below_left hpos)
    have hright := hfresh.right.cons (not_below_right hpos)
    rw [moves, if_neg hfresh.not_mem, beforeStop_stopOnce, preferring]
    split
    · next hnullable =>
      rw [beforeStop_append_of_stops (hfirst.stops hnullable (by omega) hleft)]
      exact ihfirst (by omega) hleft
    · next hnullable =>
      rw [Bool.not_eq_true] at hnullable
      rw [beforeStop_append_of_not_stops (not_stops_of_not_nullable hnullable), accepts_append,
        accepts_moves_iff (by omega) hleft hnext, ihrest (by omega) hright]
      rfl

end Accepts

/-- The endings that come before the first stop are those of the words that are preferred. -/
private theorem mem_endings_beforeStop (h : Settled regex) {c : Char} {text : List Char}
    {length : Nat} :
    length ∈ (beforeStop (regex.moves ⟨atLineStart, some c⟩ rootAddress [])).flatMap
        (Move.endings (some c) fun left => endings left (c == '\n') text) ↔
      ∃ more, length = more + 1 ∧ more ≤ text.length ∧
        regex.preferring atLineStart (c :: text.take more) (text.drop more) := by
  have haccepts : ∀ {word after : List Char},
      Accepts (beforeStop (regex.moves ⟨atLineStart, some c⟩ rootAddress [])) c word after ↔
        regex.preferring atLineStart (c :: word) after :=
    accepts_beforeStop h Nat.one_pos (Fresh.nil _) rfl
  rw [List.mem_flatMap]
  constructor
  · rintro ⟨move, hmove, hlength⟩
    cases move with
    | stop passed => exact absurd ⟨passed, hmove⟩ (not_stops_beforeStop _)
    | read set left =>
      simp only [Move.endings, Option.any_some] at hlength
      split at hlength
      · next hset =>
        obtain ⟨more, hmore, rfl⟩ := List.mem_map.mp hlength
        obtain ⟨hle, hleft⟩ := meaning_of_mem_endings hmore
        exact ⟨more, rfl, hle, haccepts.mp ⟨set, left, hmove, hset, hleft⟩⟩
      · cases hlength
  · rintro ⟨more, rfl, hle, hword⟩
    obtain ⟨set, left, hmove, hset, hleft⟩ := haccepts.mpr hword
    have hread : .read set left ∈
        Part.movesOfAll ⟨atLineStart, some c⟩ [.whole rootAddress regex] [] := by
      rw [movesOfAll_singleton]
      exact (List.takeWhile_sublist _).subset hmove
    have hmem := mem_endings_of_meaning ((InPlay.start regex).of_read_mem hread) hleft
    rw [List.take_append_drop, List.length_take_of_le hle] at hmem
    refine ⟨_, hmove, ?_⟩
    simp only [Move.endings, Option.any_some, hset, if_true]
    exact List.mem_map.mpr ⟨more, hmem, rfl⟩

/-- A preferred match that is not empty is preferred to the empty one. -/
theorem preferring_of_preferredLength (h : Settled regex) (hne : word ≠ [])
    (hlength : regex.preferredLength atLineStart (word ++ after) = some word.length) :
    regex.preferring atLineStart word after := by
  cases word with
  | nil => exact absurd rfl hne
  | cons c word =>
    rw [List.cons_append, preferredLength_eq_head?_endings, endings, movesOfAll_singleton,
      head?_flatMap_endings] at hlength
    rcases Option.or_eq_some_iff.mp hlength with hhead | ⟨-, hstop⟩
    · obtain ⟨more, hmore, -, hword⟩ := (mem_endings_beforeStop h).mp (List.mem_of_mem_head? hhead)
      obtain rfl : word.length = more := Nat.succ.inj hmore
      rwa [List.take_left, List.drop_left] at hword
    · split at hstop <;> cases hstop

/-- Where some match is preferred to the empty one, the preferred match is not empty. -/
theorem exists_preferredLength_of_preferring (h : Settled regex)
    (hword : regex.preferring atLineStart word after) :
    ∃ more, regex.preferredLength atLineStart (word ++ after) = some (more + 1) := by
  cases word with
  | nil => exact absurd hword (not_preferring_nil regex)
  | cons c word =>
    have hmem := @mem_endings_beforeStop regex atLineStart h c (word ++ after)
    have hlength := hmem.mpr ⟨word.length, rfl, by simp, by simpa using hword⟩
    have hne := List.ne_nil_of_mem hlength
    obtain ⟨more, hmore, -⟩ := hmem.mp (List.head_mem hne)
    refine ⟨more, ?_⟩
    rw [List.cons_append, preferredLength_eq_head?_endings, endings, movesOfAll_singleton,
      head?_flatMap_endings]
    exact Option.or_eq_some_iff.mpr (Or.inl (hmore ▸ List.head?_eq_some_head hne))

end MotifSearch.Regex
