import Mathlib.Data.List.Forall2
import MotifSearch.Proofs.Record.Closing
import MotifSearch.Proofs.Record.Lookahead
import MotifSearch.Proofs.Regex.Address
import MotifSearch.Proofs.Regex.Moves

/-!
# Guards that look ahead match alike

A guard and one that looks ahead go on with the same characters: with a newline, which ends the
record, and with whatever does not go on with the pitch, after which the rest of the line is read up
to its end. So an expression and the one whose guards look ahead make the same choices in the same
order, and they end in the same places. Their choices have different addresses, but they correspond
to each other one to one.

## Main definitions

* `Regex.Twin` — two expressions that differ in their guards only, with choices that correspond
* `Regex.Parallel` — two lists of moves that go on alike with the character that follows
* `Regex.corresponds` — the choices of an expression and those of the one whose guards look ahead

## Main results

* `Twin.parallel_moves` — the moves of twins are parallel
* `Left.endings_eq` — what is left of twins ends in the same places
* `Leads.preferredLength_guarded` — a match of the same length is preferred if guards look ahead
-/

namespace MotifSearch.Regex

open Record (guardItem lineItem restBody pitchGoesOn pitchEnds)

/-- A correspondence of addresses that is one to one. -/
def OneToOne (same : Nat → Nat → Prop) : Prop :=
  ∀ ⦃a a' b b'⦄, same a a' → same b b' → (a = b ↔ a' = b')

/-- The same choices have been passed, up to their addresses. -/
def Agree (same : Nat → Nat → Prop) (passed passed' : List Nat) : Prop :=
  ∀ ⦃a a'⦄, same a a' → (a ∈ passed ↔ a' ∈ passed')

/-- Whether an expression begins with the newline that ends a record. -/
def BeginsNewline (regex : Regex) : Prop :=
  regex = plain '\n' ∨ ∃ rest, regex = cat (plain '\n') rest

/-- Two expressions at their addresses differ in their guards only, of which those of the second one
look ahead. Their choices correspond to each other. -/
inductive Twin (same : Nat → Nat → Prop) : Nat → Regex → Nat → Regex → Prop
  | empty {a a' : Nat} : Twin same a empty a' empty
  | chars {a a' : Nat} {set : CharSet} : Twin same a (chars set) a' (chars set)
  | lineStart {a a' : Nat} : Twin same a lineStart a' lineStart
  | group {a a' : Nat} {captures : Bool} {body body' : Regex}
      (hbody : Twin same (2 * a) body (2 * a') body') :
      Twin same a (group captures body) a' (group captures body')
  | loop {a a' : Nat} {times : Repeat} {greedy : Bool} {body body' : Regex} (hsame : same a a')
      (hagain : same (2 * a + 1) (2 * a' + 1)) (hbody : Twin same (2 * a) body (2 * a') body') :
      Twin same a (loop times greedy body) a' (loop times greedy body')
  | cat {a a' : Nat} {first rest first' rest' : Regex}
      (hfirst : Twin same (2 * a) first (2 * a') first')
      (hrest : Twin same (2 * a + 1) rest (2 * a' + 1) rest') :
      Twin same a (cat first rest) a' (cat first' rest')
  | alt {a a' : Nat} {first rest first' rest' : Regex} (hsame : same a a')
      (hfirst : Twin same (2 * a) first (2 * a') first')
      (hrest : Twin same (2 * a + 1) rest (2 * a' + 1) rest') :
      Twin same a (alt first rest) a' (alt first' rest')
  | guard {a a' : Nat} {rest rest' : Regex} (hsame : same (2 * a) (2 * (2 * (2 * a' + 1)) + 1))
      (hnewline : BeginsNewline rest)
      (hrest : Twin same (2 * a + 1) rest (2 * (2 * a' + 1) + 1) rest') :
      Twin same a (cat guardItem rest) a' (cat (notAhead pitchGoesOn) (cat lineItem rest'))

/-- What is left of two expressions that are twins. -/
inductive PartTwin (same : Nat → Nat → Prop) : Part → Part → Prop
  | whole {a a' : Nat} {regex regex' : Regex} (h : Twin same a regex a' regex') :
      PartTwin same (.whole a regex) (.whole a' regex')
  | again {a a' : Nat} {greedy : Bool} {body body' : Regex}
      (hagain : same (2 * a + 1) (2 * a' + 1)) (hbody : Twin same (2 * a) body (2 * a') body') :
      PartTwin same (.again a greedy body) (.again a' greedy body')

/-- What is left of two matches that have gone on alike. Within the rest of a line, the loop that
reads it is left, whose choices need not correspond. -/
inductive Left (same : Nat → Nat → Prop) : List Part → List Part → Prop
  | twins {parts parts' : List Part} (h : List.Forall₂ (PartTwin same) parts parts') :
      Left same parts parts'
  | running {head : Part} {line line' a a' : Nat} {rest rest' : Regex} {parts parts' : List Part}
      (hhead : head = .whole line lineItem ∨ head = .again line true (.chars .inLine))
      (hnewline : BeginsNewline rest) (hrest : Twin same a rest a' rest')
      (h : List.Forall₂ (PartTwin same) parts parts') :
      Left same (head :: .whole a rest :: parts)
        (.again line' true (.chars .inLine) :: .whole a' rest' :: parts')

/-- Two lists of moves go on alike if `next` follows: they stop having passed the same choices, and
what is left after reading `next` has gone on alike. Moves that do not read `next` do not count. -/
inductive Parallel (same : Nat → Nat → Prop) (next : Option Char) : List Move → List Move → Prop
  | nil : Parallel same next [] []
  | stop {passed passed' : List Nat} {moves moves' : List Move} (h : Agree same passed passed')
      (hmoves : Parallel same next moves moves') :
      Parallel same next (.stop passed :: moves) (.stop passed' :: moves')
  | read {set set' : CharSet} {left left' : List Part} {moves moves' : List Move}
      (hset : next.any set.contains = true) (hset' : next.any set'.contains = true)
      (hleft : Left same left left') (hmoves : Parallel same next moves moves') :
      Parallel same next (.read set left :: moves) (.read set' left' :: moves')
  | skipFirst {set : CharSet} {left : List Part} {moves moves' : List Move}
      (hset : next.any set.contains = false) (hmoves : Parallel same next moves moves') :
      Parallel same next (.read set left :: moves) moves'
  | skipSecond {set : CharSet} {left : List Part} {moves moves' : List Move}
      (hset : next.any set.contains = false) (hmoves : Parallel same next moves moves') :
      Parallel same next moves (.read set left :: moves')

variable {same : Nat → Nat → Prop} {next : Option Char} {place : Place}
variable {moves moves' others others' : List Move} {parts parts' after after' : List Part}
variable {passed passed' : List Nat} {a a' : Nat} {regex regex' : Regex}

theorem Agree.nil : Agree same [] [] :=
  fun _ _ _ => iff_of_false List.not_mem_nil List.not_mem_nil

theorem Agree.cons (hone : OneToOne same) (hsame : same a a') (h : Agree same passed passed') :
    Agree same (a :: passed) (a' :: passed') := by
  intro b b' hb
  rw [List.mem_cons, List.mem_cons, hone hb hsame, h hb]

theorem Left.append (h : Left same parts parts')
    (hafter : List.Forall₂ (PartTwin same) after after') :
    Left same (parts ++ after) (parts' ++ after') := by
  cases h with
  | twins h => exact .twins (List.rel_append h hafter)
  | running hhead hnewline hrest h =>
    exact .running hhead hnewline hrest (List.rel_append h hafter)

theorem Twin.nullable_eq (h : Twin same a regex a' regex') : regex.nullable = regex'.nullable := by
  induction h with
  | empty | chars | lineStart => rfl
  | group _ ih => exact ih
  | @loop _ _ times _ _ _ _ _ _ ih =>
    cases times with
    | oneOrMore => exact ih
    | optional | zeroOrMore => rfl
  | cat _ _ ihfirst ihrest => rw [nullable, nullable, ihfirst, ihrest]
  | alt _ _ _ ihfirst ihrest => rw [nullable, nullable, ihfirst, ihrest]
  | guard _ _ _ ih => exact ih

section Parallel

theorem Parallel.append (h : Parallel same next moves moves')
    (hothers : Parallel same next others others') :
    Parallel same next (moves ++ others) (moves' ++ others') := by
  induction h with
  | nil => exact hothers
  | stop h _ ih => exact .stop h ih
  | read hset hset' hleft _ ih => exact .read hset hset' hleft ih
  | skipFirst hset _ ih => exact .skipFirst hset ih
  | skipSecond hset _ ih => exact .skipSecond hset ih

theorem Parallel.continueWith {andThen andThen' : List Nat → List Move}
    (h : Parallel same next moves moves')
    (hthen : ∀ {passed passed'}, Agree same passed passed' →
      Parallel same next (andThen passed) (andThen' passed'))
    (hafter : List.Forall₂ (PartTwin same) after after') :
    Parallel same next (continueWith andThen after moves)
      (continueWith andThen' after' moves') := by
  induction h with
  | nil => exact .nil
  | stop h _ ih => exact (hthen h).append ih
  | read hset hset' hleft _ ih => exact .read hset hset' (hleft.append hafter) ih
  | skipFirst hset _ ih => exact .skipFirst hset ih
  | skipSecond hset _ ih => exact .skipSecond hset ih

theorem Parallel.withoutStops (h : Parallel same next moves moves') :
    Parallel same next (moves.filter (!·.isStop)) (moves'.filter (!·.isStop)) := by
  induction h with
  | nil => exact .nil
  | stop _ _ ih => exact ih
  | read hset hset' hleft _ ih => exact .read hset hset' hleft ih
  | skipFirst hset _ ih => exact .skipFirst hset ih
  | skipSecond hset _ ih => exact .skipSecond hset ih

theorem Parallel.stopOnce (h : Parallel same next moves moves') :
    Parallel same next (stopOnce moves) (stopOnce moves') := by
  induction h with
  | nil => exact .nil
  | stop h hmoves _ => exact .stop h hmoves.withoutStops
  | read hset hset' hleft _ ih => exact .read hset hset' hleft ih
  | skipFirst hset _ ih => exact .skipFirst hset ih
  | skipSecond hset _ ih => exact .skipSecond hset ih

/-- Moves that go on alike end in the same places. -/
theorem Parallel.flatMap_endings {ahead : List Part → List Nat}
    (h : Parallel same next moves moves')
    (hahead : ∀ {left left'}, Left same left left' → ahead left = ahead left') :
    moves.flatMap (Move.endings next ahead) = moves'.flatMap (Move.endings next ahead) := by
  have hskip : ∀ {set : CharSet} {left : List Part}, next.any set.contains = false →
      Move.endings next ahead (.read set left) = [] := by
    intro set left hset
    rw [Move.endings, hset, if_neg Bool.false_ne_true]
  induction h with
  | nil => rfl
  | stop _ _ ih => exact congrArg (0 :: ·) ih
  | read hset hset' hleft _ ih =>
    rw [List.flatMap_cons, List.flatMap_cons, Move.endings, Move.endings, if_pos hset,
      if_pos hset', hahead hleft, ih]
  | skipFirst hset _ ih => rw [List.flatMap_cons, hskip hset, ih, List.nil_append]
  | skipSecond hset _ ih => rw [List.flatMap_cons, hskip hset, ih, List.nil_append]

/-- Moves that read the same character. -/
theorem Parallel.read_of_left {left left' : List Part} (set : CharSet)
    (hleft : Left same left left') :
    Parallel same next [.read set left] [.read set left'] := by
  cases hset : next.any set.contains with
  | true => exact .read hset hset hleft .nil
  | false => exact .skipFirst hset (.skipSecond hset .nil)

variable {inner inner' : List Nat → List Move} {greedy : Bool}

theorem Parallel.choose (hone : OneToOne same) (hsame : same a a')
    (hinner : ∀ {passed passed'}, Agree same passed passed' →
      Parallel same next (inner passed) (inner' passed'))
    (hagree : Agree same passed passed') :
    Parallel same next (choose a greedy inner passed) (choose a' greedy inner' passed') := by
  unfold Regex.choose
  by_cases hmem : a ∈ passed
  · rw [if_pos hmem, if_pos ((hagree hsame).mp hmem)]
    exact .nil
  · have hcons := hagree.cons hone hsame
    have hstop : Parallel same next [.stop (a :: passed)] [.stop (a' :: passed')] :=
      .stop hcons .nil
    rw [if_neg hmem, if_neg fun h => hmem ((hagree hsame).mpr h)]
    cases greedy with
    | true => exact ((hinner hcons).append hstop).stopOnce
    | false => exact (hstop.append (hinner hcons)).stopOnce

variable {body body' : Regex}

theorem Parallel.againMoves (hone : OneToOne same) (hagain : same (2 * a + 1) (2 * a' + 1))
    (hbody : Twin same (2 * a) body (2 * a') body')
    (hinner : ∀ {passed passed'}, Agree same passed passed' →
      Parallel same next (inner passed) (inner' passed'))
    (hagree : Agree same passed passed') :
    Parallel same next (againMoves a greedy body inner passed)
      (againMoves a' greedy body' inner' passed') := by
  refine .choose hone hagain (fun hpassed => ?_) hagree
  exact (hinner hpassed).continueWith (fun _ => .nil) (.cons (.again hagain hbody) .nil)

theorem Parallel.firstMoves (hone : OneToOne same) (hagain : same (2 * a + 1) (2 * a' + 1))
    (hbody : Twin same (2 * a) body (2 * a') body')
    (hinner : ∀ {passed passed'}, Agree same passed passed' →
      Parallel same next (inner passed) (inner' passed'))
    (hagree : Agree same passed passed') :
    Parallel same next (firstMoves a greedy body inner passed)
      (firstMoves a' greedy body' inner' passed') := by
  refine (hinner hagree).continueWith (fun {passed passed'} hpassed => ?_)
    (.cons (.again hagain hbody) .nil)
  by_cases hmem : 2 * a + 1 ∈ passed
  · rw [if_pos hmem, if_pos ((hpassed hagain).mp hmem)]
    exact .nil
  · rw [if_neg hmem, if_neg fun h => hmem ((hpassed hagain).mpr h)]
    exact .stop (hpassed.cons hone hagain) .nil

end Parallel

section Guard

/-- What ends a pitch is neither the newline nor what goes on with the pitch. -/
theorem contains_pitchEnds_eq (c : Char) :
    pitchEnds.contains c = !(c == '\n' || pitchGoesOn.contains c) := by
  simp only [pitchEnds, pitchGoesOn, CharSet.contains, List.any_cons, ClassItem.contains,
    List.any_nil]
  grind

/-- Twins that begin with a newline read it and nothing else. -/
theorem Twin.exists_newline (place : Place) (h : Twin same a regex a' regex')
    (hnewline : BeginsNewline regex) :
    ∃ left left', List.Forall₂ (PartTwin same) left left' ∧
      (∀ passed, regex.moves place a passed = [.read (.single '\n') left]) ∧
      ∀ passed, regex'.moves place a' passed = [.read (.single '\n') left'] := by
  rcases hnewline with rfl | ⟨rest, rfl⟩
  · cases h with
    | chars => exact ⟨[], [], .nil, fun _ => rfl, fun _ => rfl⟩
  · cases h with
    | cat hfirst hrest =>
      cases hfirst with
      | chars =>
        exact ⟨_, _, .cons (.whole hrest) .nil, fun _ => rfl, fun _ => rfl⟩

/-- What begins with a newline reads it before other parts. -/
theorem movesOfAll_newline {left : List Part}
    (h : ∀ passed, regex.moves place a passed = [.read (.single '\n') left])
    (parts : List Part) (passed : List Nat) :
    Part.movesOfAll place (.whole a regex :: parts) passed =
      [.read (.single '\n') (left ++ parts)] := by
  rw [Part.movesOfAll, Part.moves, h]
  rfl

/-- A guard reads what ends a pitch and then the rest of the line, or else the newline. -/
theorem moves_guardItem_cat {rest : Regex} {left : List Part}
    (hrest : ∀ passed, rest.moves place (2 * a + 1) passed = [.read (.single '\n') left]) :
    (cat guardItem rest).moves place a passed =
      if 2 * a ∈ passed then []
      else [.read pitchEnds [.whole (2 * (2 * (2 * a)) + 1) lineItem, .whole (2 * a + 1) rest],
        .read (.single '\n') left] := by
  rw [moves, guardItem, moves, choose]
  split
  · rfl
  · show [Move.read _ _] ++ (rest.moves place (2 * a + 1) _ ++ []) = _
    rw [hrest]
    rfl

/-- A guard that looks ahead reads the rest of the line or the newline, unless the pitch goes on. -/
theorem moves_aheadItems_cat {rest : Regex} {left : List Part}
    (hrest : ∀ passed, rest.moves place (2 * (2 * a + 1) + 1) passed =
      [.read (.single '\n') left]) :
    (cat (notAhead pitchGoesOn) (cat lineItem rest)).moves place a passed =
      if place.next.any pitchGoesOn.contains = true ∨ 2 * (2 * (2 * a + 1)) + 1 ∈ passed then []
      else [.read .inLine [.again (2 * (2 * a + 1)) true (.chars .inLine),
          .whole (2 * (2 * a + 1) + 1) rest],
        .read (.single '\n') left] := by
  rw [moves, moves]
  by_cases hnext : place.next.any pitchGoesOn.contains = true
  · rw [if_pos hnext, if_pos (Or.inl hnext)]
    rfl
  · rw [if_neg hnext, continueWith_stop, moves]
    have hline : lineItem.moves place (2 * (2 * a + 1)) passed =
        if 2 * (2 * (2 * a + 1)) + 1 ∈ passed then []
        else [.read .inLine [.again (2 * (2 * a + 1)) true (.chars .inLine)],
          .stop ((2 * (2 * (2 * a + 1)) + 1) :: passed)] := rfl
    rw [hline]
    by_cases hmem : 2 * (2 * (2 * a + 1)) + 1 ∈ passed
    · rw [if_pos hmem, if_pos (Or.inr hmem)]
      rfl
    · rw [if_neg hmem, if_neg (not_or.mpr ⟨hnext, hmem⟩)]
      show [Move.read _ _] ++ (rest.moves place _ _ ++ []) = _
      rw [hrest]
      rfl

/-- A guard and one that looks ahead go on alike. -/
theorem Parallel.guard {rest rest' : Regex} (hsame : same (2 * a) (2 * (2 * (2 * a' + 1)) + 1))
    (hnewline : BeginsNewline rest)
    (hrest : Twin same (2 * a + 1) rest (2 * (2 * a' + 1) + 1) rest')
    (hagree : Agree same passed passed') :
    Parallel same place.next ((cat guardItem rest).moves place a passed)
      ((cat (notAhead pitchGoesOn) (cat lineItem rest')).moves place a' passed') := by
  obtain ⟨left, left', hleft, hmoves, hmoves'⟩ := hrest.exists_newline place hnewline
  rw [moves_guardItem_cat hmoves, moves_aheadItems_cat hmoves']
  by_cases hmem : 2 * a ∈ passed
  · rw [if_pos hmem, if_pos (Or.inr ((hagree hsame).mp hmem))]
    exact .nil
  have hmem' : 2 * (2 * (2 * a' + 1)) + 1 ∉ passed' := fun h => hmem ((hagree hsame).mpr h)
  have hnewlines : Parallel same place.next [.read (.single '\n') left]
      [.read (.single '\n') left'] := .read_of_left _ (.twins hleft)
  rw [if_neg hmem]
  -- What ends a pitch is in the line, and it is what does not go on with the pitch.
  by_cases hahead : place.next.any pitchGoesOn.contains = true
  · rw [if_pos (Or.inl hahead)]
    obtain ⟨c, hnext, hc⟩ := (Option.any_eq_true _ _).mp hahead
    have hne : c ≠ '\n' := by
      rintro rfl
      cases hc
    rw [hnext]
    refine .skipFirst ?_ (.skipFirst ?_ .nil)
    · rw [Option.any_some, contains_pitchEnds_eq, hc, Bool.or_true, Bool.not_true]
    · rw [Option.any_some, CharSet.contains, beq_eq_false_iff_ne]
      exact hne
  · rw [if_neg (not_or.mpr ⟨hahead, hmem'⟩)]
    have hsets : place.next.any pitchEnds.contains = place.next.any CharSet.inLine.contains := by
      cases hnext : place.next with
      | none => rfl
      | some c =>
        rw [hnext, Option.any_some, Bool.not_eq_true] at hahead
        rw [Option.any_some, Option.any_some, contains_pitchEnds_eq, hahead, Bool.or_false]
        rfl
    cases hset : place.next.any CharSet.inLine.contains with
    | true =>
      exact .read (hsets.trans hset) hset (.running (Or.inl rfl) hnewline hrest .nil) hnewlines
    | false => exact .skipFirst (hsets.trans hset) (.skipSecond hset hnewlines)

end Guard

/-- The moves of twins go on alike. -/
theorem Twin.parallel_moves (hone : OneToOne same) (h : Twin same a regex a' regex')
    (hagree : Agree same passed passed') :
    Parallel same place.next (regex.moves place a passed) (regex'.moves place a' passed') := by
  induction h generalizing passed passed' with
  | empty => exact .stop hagree .nil
  | chars => exact .read_of_left _ (.twins .nil)
  | lineStart =>
    rw [Regex.moves, Regex.moves]
    split
    · exact .stop hagree .nil
    · exact .nil
  | group _ ih => exact ih hagree
  | @loop _ _ times greedy body body' hsame hagain hbody ih =>
    cases times with
    | optional => exact .choose hone hsame ih hagree
    | oneOrMore => exact .firstMoves hone hagain hbody ih hagree
    | zeroOrMore =>
      rw [Regex.moves, Regex.moves, hbody.nullable_eq]
      split
      · exact .choose hone hsame (.firstMoves hone hagain hbody ih) hagree
      · exact .againMoves hone hagain hbody ih hagree
  | cat _ hrest ihfirst ihrest =>
    exact (ihfirst hagree).continueWith ihrest (.cons (.whole hrest) .nil)
  | @alt a a' first rest first' rest' hsame _ _ ihfirst ihrest =>
    rw [Regex.moves, Regex.moves]
    by_cases hmem : a ∈ passed
    · rw [if_pos hmem, if_pos ((hagree hsame).mp hmem)]
      exact .nil
    · have hcons := hagree.cons hone hsame
      rw [if_neg hmem, if_neg fun h => hmem ((hagree hsame).mpr h)]
      exact ((ihfirst hcons).append (ihrest hcons)).stopOnce
  | guard hsame hnewline hrest => exact .guard hsame hnewline hrest hagree

section Endings

theorem PartTwin.parallel_moves {part part' : Part} (hone : OneToOne same)
    (h : PartTwin same part part') (hagree : Agree same passed passed') :
    Parallel same place.next (part.moves place passed) (part'.moves place passed') := by
  cases h with
  | whole h => exact h.parallel_moves hone hagree
  | again hagain hbody =>
    exact .againMoves hone hagain hbody (hbody.parallel_moves hone) hagree

theorem parallel_movesOfAll (hone : OneToOne same)
    (h : List.Forall₂ (PartTwin same) parts parts') (hagree : Agree same passed passed') :
    Parallel same place.next (Part.movesOfAll place parts passed)
      (Part.movesOfAll place parts' passed') := by
  induction h generalizing passed passed' with
  | nil => exact .stop hagree .nil
  | cons hpart hparts ih => exact (hpart.parallel_moves hone hagree).continueWith ih hparts

/-- What is left of matches that have gone on alike goes on alike. -/
theorem Left.parallel_movesOfAll (place : Place) (hone : OneToOne same)
    (h : Left same parts parts') :
    Parallel same place.next (Part.movesOfAll place parts [])
      (Part.movesOfAll place parts' []) := by
  cases h with
  | twins h => exact Regex.parallel_movesOfAll hone h .nil
  | @running head line _ _ _ _ _ parts parts' hhead hnewline hrest h =>
    obtain ⟨left, left', hleft, hmoves, hmoves'⟩ := hrest.exists_newline place hnewline
    have hhead : ∀ others, Part.movesOfAll place (head :: others) [] =
        Part.movesOfAll place (.again line true (.chars .inLine) :: others) [] := by
      rcases hhead with rfl | rfl <;> exact fun _ => rfl
    rw [hhead, movesOfAll_line (movesOfAll_newline hmoves parts),
      movesOfAll_line (movesOfAll_newline hmoves' parts')]
    exact (Parallel.read_of_left .inLine (.running (Or.inr rfl) hnewline hrest h)).append
      (.read_of_left (.single '\n') (.twins (List.rel_append hleft h)))

/-- What is left of matches that have gone on alike ends in the same places. -/
theorem Left.endings_eq (hone : OneToOne same) (h : Left same parts parts') (atLineStart : Bool)
    (text : List Char) : endings parts atLineStart text = endings parts' atLineStart text := by
  -- What is left after a character has gone on alike again, wherever it comes from, so one relation
  -- carries the induction through the whole text.
  induction text generalizing parts parts' atLineStart with
  | nil =>
    have hmoves := h.parallel_movesOfAll ⟨atLineStart, none⟩ hone
    exact hmoves.flatMap_endings fun _ => rfl
  | cons c text ih =>
    have hmoves := h.parallel_movesOfAll ⟨atLineStart, some c⟩ hone
    exact hmoves.flatMap_endings fun hleft => ih hleft (c == '\n')

end Endings

section Choices

/-- The choices of an expression at an address, and those of the one whose guards look ahead. The
choice of a guard is that of the loop which reads the rest of the line. -/
def corresponds : Regex → (a a' b b' : Nat) → Prop
  | group _ body, a, a', b, b' => body.corresponds (2 * a) (2 * a') b b'
  | loop _ _ body, a, a', b, b' =>
    (b = a ∧ b' = a') ∨ (b = 2 * a + 1 ∧ b' = 2 * a' + 1) ∨ body.corresponds (2 * a) (2 * a') b b'
  | cat first rest, a, a', b, b' =>
    if first = guardItem then
      (b = 2 * a ∧ b' = 2 * (2 * (2 * a' + 1)) + 1) ∨
        rest.corresponds (2 * a + 1) (2 * (2 * a' + 1) + 1) b b'
    else first.corresponds (2 * a) (2 * a') b b' ∨ rest.corresponds (2 * a + 1) (2 * a' + 1) b b'
  | alt first rest, a, a', b, b' =>
    (b = a ∧ b' = a') ∨ first.corresponds (2 * a) (2 * a') b b' ∨
      rest.corresponds (2 * a + 1) (2 * a' + 1) b b'
  | _, _, _, _, _ => False

variable {other : Nat → Nat → Prop} {b b' : Nat}

theorem Below.ne (hpos : 0 < a) (hleft : Below (2 * a) b) (hright : Below (2 * a + 1) b') :
    b ≠ b' := by
  rintro rfl
  exact hleft.disjoint hpos hright

theorem Below.ne_left (hpos : 0 < a) (h : Below (2 * a) b) : a ≠ b := by
  rintro rfl
  exact not_below_left hpos h

theorem Below.ne_right (hpos : 0 < a) (h : Below (2 * a + 1) b) : a ≠ b := by
  rintro rfl
  exact not_below_right hpos h

theorem below_of_corresponds (h : regex.corresponds a a' b b') : Below a b ∧ Below a' b' := by
  induction regex generalizing a a' with
  | empty | chars | lineStart | notAhead => exact h.elim
  | group captures body ih => exact ⟨(ih h).1.of_left, (ih h).2.of_left⟩
  | loop times greedy body ih =>
    rcases h with ⟨rfl, rfl⟩ | ⟨rfl, rfl⟩ | h
    · exact ⟨.refl _, .refl _⟩
    · exact ⟨below_right _, below_right _⟩
    · exact ⟨(ih h).1.of_left, (ih h).2.of_left⟩
  | cat first rest ihfirst ihrest =>
    rw [corresponds] at h
    split at h
    · rcases h with ⟨rfl, rfl⟩ | h
      · exact ⟨(Below.refl _).of_left, (below_right _).of_left.of_right⟩
      · exact ⟨(ihrest h).1.of_right, (ihrest h).2.of_right.of_right⟩
    · rcases h with h | h
      · exact ⟨(ihfirst h).1.of_left, (ihfirst h).2.of_left⟩
      · exact ⟨(ihrest h).1.of_right, (ihrest h).2.of_right⟩
  | alt first rest ihfirst ihrest =>
    rcases h with ⟨rfl, rfl⟩ | h | h
    · exact ⟨.refl _, .refl _⟩
    · exact ⟨(ihfirst h).1.of_left, (ihfirst h).2.of_left⟩
    · exact ⟨(ihrest h).1.of_right, (ihrest h).2.of_right⟩

theorem OneToOne.pair (a a' : Nat) : OneToOne fun b b' => b = a ∧ b' = a' := by
  rintro _ _ _ _ ⟨rfl, rfl⟩ ⟨rfl, rfl⟩
  exact iff_of_true rfl rfl

/-- Two correspondences of different addresses. -/
theorem OneToOne.either (h : OneToOne same) (hother : OneToOne other)
    (hapart : ∀ {a a' b b'}, same a a' → other b b' → a ≠ b ∧ a' ≠ b') :
    OneToOne fun a a' => same a a' ∨ other a a' := by
  rintro a a' b b' (ha | ha) (hb | hb)
  · exact h ha hb
  · exact iff_of_false (hapart ha hb).1 (hapart ha hb).2
  · exact iff_of_false (hapart hb ha).1.symm (hapart hb ha).2.symm
  · exact hother ha hb

/-- The choices of two expressions that stand side by side. -/
theorem OneToOne.siblings {first rest : Regex} (hpos : 0 < a) (hpos' : 0 < a')
    (hfirst : OneToOne (first.corresponds (2 * a) (2 * a')))
    (hrest : OneToOne (rest.corresponds (2 * a + 1) (2 * a' + 1))) :
    OneToOne fun b b' => first.corresponds (2 * a) (2 * a') b b' ∨
      rest.corresponds (2 * a + 1) (2 * a' + 1) b b' := by
  refine hfirst.either hrest fun hb hc => ?_
  have hbelow := below_of_corresponds hb
  have hbelow' := below_of_corresponds hc
  exact ⟨hbelow.1.ne hpos hbelow'.1, hbelow.2.ne hpos' hbelow'.2⟩

/-- The choices of an expression correspond one to one. -/
theorem oneToOne_corresponds (regex : Regex) (hpos : 0 < a) (hpos' : 0 < a') :
    OneToOne (regex.corresponds a a') := by
  induction regex generalizing a a' with
  | empty | chars | lineStart | notAhead => exact fun _ _ _ _ h => h.elim
  | group captures body ih => exact ih (by omega) (by omega)
  | loop times greedy body ih =>
    refine (OneToOne.pair a a').either ((OneToOne.pair _ _).either (ih (by omega) (by omega)) ?_) ?_
    · rintro _ _ b b' ⟨rfl, rfl⟩ h
      have hbelow := below_of_corresponds h
      exact ⟨(hbelow.1.ne hpos (.refl _)).symm, (hbelow.2.ne hpos' (.refl _)).symm⟩
    · rintro _ _ b b' ⟨rfl, rfl⟩ (⟨rfl, rfl⟩ | h)
      · exact ⟨by omega, by omega⟩
      · have hbelow := below_of_corresponds h
        exact ⟨hbelow.1.ne_left hpos, hbelow.2.ne_left hpos'⟩
  | cat first rest ihfirst ihrest =>
    by_cases hguard : first = guardItem
    · -- The loop that stands for the guard stands beside what comes after it.
      have heq : (cat first rest).corresponds a a' = fun b b' =>
          (b = 2 * a ∧ b' = 2 * (2 * (2 * a' + 1)) + 1) ∨
            rest.corresponds (2 * a + 1) (2 * (2 * a' + 1) + 1) b b' := by
        funext b b'
        rw [corresponds, if_pos hguard]
      rw [heq]
      refine (OneToOne.pair _ _).either (ihrest (by omega) (by omega)) ?_
      rintro _ _ b b' ⟨rfl, rfl⟩ h
      have hbelow := below_of_corresponds h
      exact ⟨(Below.refl _).ne hpos hbelow.1, (below_right _).ne (by omega) hbelow.2⟩
    · have heq : (cat first rest).corresponds a a' = fun b b' =>
          first.corresponds (2 * a) (2 * a') b b' ∨
            rest.corresponds (2 * a + 1) (2 * a' + 1) b b' := by
        funext b b'
        rw [corresponds, if_neg hguard]
      rw [heq]
      exact .siblings hpos hpos' (ihfirst (by omega) (by omega)) (ihrest (by omega) (by omega))
  | alt first rest ihfirst ihrest =>
    have hsiblings := OneToOne.siblings hpos hpos' (ihfirst (by omega) (by omega))
      (ihrest (by omega) (by omega))
    refine (OneToOne.pair a a').either hsiblings ?_
    rintro _ _ b b' ⟨rfl, rfl⟩ (h | h)
    · have hbelow := below_of_corresponds h
      exact ⟨hbelow.1.ne_left hpos, hbelow.2.ne_left hpos'⟩
    · have hbelow := below_of_corresponds h
      exact ⟨hbelow.1.ne_right hpos, hbelow.2.ne_right hpos'⟩

end Choices

section Guarded

variable {mode mode' : Mode}

/-- What stands where a record is being closed begins with its newline. -/
theorem Leads.beginsNewline (h : Leads Record.matchedControl regex .closing mode) :
    BeginsNewline regex := by
  cases hcat : regex.isCat with
  | false => exact Or.inl (h.eq_closingItem rfl hcat)
  | true =>
    cases h with
    | @cat first rest _ _ _ hfirstCat hfirst hrest =>
      obtain rfl := hfirst.eq_closingItem rfl hfirstCat
      exact Or.inr ⟨rest, rfl⟩
    | chars | empty | group | optional | oneOrMore | zeroOrMore | alt => cases hcat

theorem twin_lineItem (hsame : ∀ {b b'}, lineItem.corresponds a a' b b' → same b b') :
    Twin same a lineItem a' lineItem :=
  .loop (hsame (Or.inl ⟨rfl, rfl⟩)) (hsame (Or.inr (Or.inl ⟨rfl, rfl⟩))) .chars

/-- The loop over records without notes has no guards. -/
theorem twin_skip (hsame : ∀ {b b'}, (loop .zeroOrMore false Record.matchedControl).corresponds
      a a' b b' → same b b') :
    Twin same a (loop .zeroOrMore false Record.matchedControl) a'
      (loop .zeroOrMore false Record.matchedControl) := by
  have hbody : ∀ {b b'}, Record.matchedControl.corresponds (2 * a) (2 * a') b b' → same b b' :=
    fun h => hsame (Or.inr (Or.inr h))
  refine .loop (hsame (Or.inl ⟨rfl, rfl⟩)) (hsame (Or.inr (Or.inl ⟨rfl, rfl⟩)))
    (.cat .chars (.cat (twin_lineItem fun h => hbody ?_) .chars))
  exact Or.inr (Or.inl h)

/-- The body of a loop that is no guard, and the loop. -/
private theorem twin_loop {times : Repeat} {greedy : Bool} {body : Regex}
    (hsame : ∀ {b b'}, (loop times greedy body).corresponds a a' b b' → same b b')
    (hne : loop times greedy body ≠ guardItem)
    (hbody : Twin same (2 * a) body (2 * a') body.guarded) :
    Twin same a (loop times greedy body) a' (loop times greedy body).guarded := by
  rw [guarded_loop hne]
  exact .loop (hsame (Or.inl ⟨rfl, rfl⟩)) (hsame (Or.inr (Or.inl ⟨rfl, rfl⟩))) hbody

/-- What leads to the newline of a record has no guards, unless it is one. -/
private theorem Leads.twin_closing (h : Leads Record.matchedControl regex mode .closing)
    (hcat : regex.isCat = false) (hguard : regex ≠ guardItem)
    (hsame : ∀ {b b'}, regex.corresponds a a' b b' → same b b') :
    Twin same a regex a' regex.guarded := by
  cases h with
  | line => exact twin_lineItem hsame
  | rest hbody =>
    rcases hbody with rfl | rfl
    · exact absurd rfl hguard
    · refine twin_loop hsame hguard (.group (.cat .chars (twin_lineItem fun h => hsame ?_)))
      exact Or.inr (Or.inr (Or.inr h))
  | chars => exact .chars
  | cat => cases hcat
  | empty hopen | optional hopen | zeroOrMore hopen => cases hopen
  | group _ hopen | oneOrMore _ hopen | alt _ hopen => cases hopen

/-- An expression that leads from mode to mode and the one whose guards look ahead. -/
theorem Leads.twin (h : Leads Record.matchedControl regex mode mode') (hmode : mode' ≠ .closing)
    (hsame : ∀ {b b'}, regex.corresponds a a' b b' → same b b') :
    Twin same a regex a' regex.guarded := by
  induction h generalizing a a' with
  | empty => exact .empty
  | chars => exact .chars
  | lineStart => exact .lineStart
  | rest | line => exact absurd rfl hmode
  | skip => exact twin_skip hsame
  | group _ _ _ ih => exact .group (ih hmode hsame)
  | optional _ hbody ih | zeroOrMore _ hbody ih =>
    exact twin_loop hsame (loop_ne_guardItem hbody) (ih hmode fun h => hsame (Or.inr (Or.inr h)))
  | oneOrMore _ _ hfirst _ ih _ =>
    exact twin_loop hsame (loop_ne_guardItem hfirst) (ih hmode fun h => hsame (Or.inr (Or.inr h)))
  | @cat first rest _ middle _ hcat hfirst hrest ihfirst ihrest =>
    simp only [corresponds] at hsame
    rw [guarded]
    by_cases hguard : first = guardItem
    · -- After a guard the record is being closed, so that its newline comes next.
      subst hguard
      obtain rfl := hfirst.eq_closing_of_guardItem
      simp only [if_pos] at hsame ⊢
      exact .guard (hsame (Or.inl ⟨rfl, rfl⟩)) hrest.beginsNewline
        (ihrest hmode fun h => hsame (Or.inr h))
    · simp only [if_neg hguard] at hsame ⊢
      refine .cat ?_ (ihrest hmode fun h => hsame (Or.inr h))
      by_cases hmiddle : middle = .closing
      · subst hmiddle
        exact hfirst.twin_closing hcat hguard fun h => hsame (Or.inl h)
      · exact ihfirst hmiddle fun h => hsame (Or.inl h)
  | alt _ _ _ _ ihfirst ihrest =>
    exact .alt (hsame (Or.inl ⟨rfl, rfl⟩)) (ihfirst hmode fun h => hsame (Or.inr (Or.inl h)))
      (ihrest hmode fun h => hsame (Or.inr (Or.inr h)))

/-- A match of the same length is preferred if guards look ahead. -/
theorem Leads.preferredLength_guarded (h : Leads Record.matchedControl regex .between .between)
    (atLineStart : Bool) (text : List Char) :
    regex.guarded.preferredLength atLineStart text = regex.preferredLength atLineStart text := by
  have htwin : Twin (regex.corresponds rootAddress rootAddress) rootAddress regex rootAddress
      regex.guarded := h.twin (by decide) id
  -- Both expressions stand at the root, and the choices below it correspond.
  have hone : OneToOne (regex.corresponds rootAddress rootAddress) :=
    oneToOne_corresponds regex Nat.one_pos Nat.one_pos
  have hendings := Left.endings_eq hone (.twins (.cons (.whole htwin) .nil)) atLineStart text
  rw [preferredLength_eq_head?_endings, preferredLength_eq_head?_endings, hendings]

end Guarded

end MotifSearch.Regex
