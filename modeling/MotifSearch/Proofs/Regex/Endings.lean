import MotifSearch.Regex.Match

/-!
# The endings of matches

The parts that are left to be matched can end in several places of a text. Here all of these places
are listed in order of preference, by following every move instead of those of the preferred match
only. The preferred match is the first one of the list, so that forgetting less preferred moves and
repeated lists of parts on the way makes no difference.

## Main definitions

* `Move.endings`, `Regex.endings` — the lengths of all matches, preferred ones first

## Main results

* `run_eq_head?_endings` — the parts in play are run to the first of their endings
* `zero_mem_endings` — a match may be empty if it may stop right away
* `preferredLength_eq_head?_endings` — the preferred match is the first of all
-/

namespace MotifSearch

/-- The lengths of the matches that begin with a move: `next` is the character that follows, and
`ahead` has the lengths of the matches of what is left behind it. -/
def Move.endings (next : Option Char) (ahead : List Part → List Nat) : Move → List Nat
  | stop _ => [0]
  | read set left => if next.any set.contains then (ahead left).map (· + 1) else []

namespace Regex

/-- The lengths of all matches of some parts at the beginning of a text, in order of preference. -/
def endings : List Part → (atLineStart : Bool) → List Char → List Nat
  | parts, atLineStart, [] =>
    (Part.movesOfAll ⟨atLineStart, none⟩ parts []).flatMap (Move.endings none fun _ => [])
  | parts, atLineStart, c :: text =>
    (Part.movesOfAll ⟨atLineStart, some c⟩ parts []).flatMap
      (Move.endings (some c) fun left => endings left (c == '\n') text)

private theorem flatMap_filter_ne {α β : Type} [BEq α] [LawfulBEq α] {f : α → List β} {a : α}
    (h : f a = []) (items : List α) : (items.filter (!· == a)).flatMap f = items.flatMap f := by
  induction items with
  | nil => rfl
  | cons item items ih =>
    by_cases heq : item = a
    · subst heq
      simp [h, ih]
    · simp [heq, ih]

private theorem head?_flatMap_eraseDups {α β : Type} [BEq α] [LawfulBEq α] (f : α → List β)
    (items : List α) : (items.eraseDups.flatMap f).head? = (items.flatMap f).head? := by
  -- Leaving out repetitions filters the rest of the list, so the induction is on the length.
  induction hlength : items.length using Nat.strongRecOn generalizing items with
  | ind count ih =>
    cases items with
    | nil => simp
    | cons item items =>
      rw [List.eraseDups_cons, List.flatMap_cons, List.flatMap_cons, List.head?_append,
        List.head?_append]
      cases hitem : f item with
      | cons first others => rfl
      | nil =>
        have hle := List.length_filter_le (!· == item) items
        simp only [List.length_cons] at hlength
        rw [ih (items.filter (!· == item)).length (by omega) _ rfl, flatMap_filter_ne hitem]

variable {c : Char} {moves : List Move} {ahead : List Part → List Nat}

/-- What comes before the first stop decides about the match, if there is a match at all. -/
theorem head?_flatMap_endings (next : Option Char) :
    (moves.flatMap (Move.endings next ahead)).head? =
      ((moves.takeWhile (!·.isStop)).flatMap (Move.endings next ahead)).head?.or
        (if moves.any Move.isStop then some 0 else none) := by
  induction moves with
  | nil => rfl
  | cons move moves ih =>
    cases move with
    | stop passed => simp [Move.endings, Move.isStop]
    | read set left =>
      simp only [Move.isStop, List.takeWhile_cons, Bool.not_false, ↓reduceIte, List.flatMap_cons,
        List.head?_append, List.any_cons, Bool.false_or, ih, Option.or_assoc]

private theorem head?_flatMap_advance :
    ((advance c (moves.takeWhile (!·.isStop))).flatMap ahead).head?.map (· + 1) =
      ((moves.takeWhile (!·.isStop)).flatMap (Move.endings (some c) ahead)).head? := by
  rw [advance, head?_flatMap_eraseDups, ← List.head?_map]
  congr 1
  induction moves with
  | nil => rfl
  | cons move moves ih =>
    cases move with
    | stop passed => rfl
    | read set left =>
      by_cases hset : set.contains c = true
      · simpa [Move.isStop, Move.endings, hset] using ih
      · simpa [Move.isStop, Move.endings, hset] using ih

private theorem flatMap_endings_takeWhile :
    (moves.takeWhile (!·.isStop)).flatMap (Move.endings none ahead) = [] := by
  induction moves with
  | nil => rfl
  | cons move moves ih =>
    cases move with
    | stop passed => rfl
    | read set left => simpa [Move.isStop, Move.endings] using ih

theorem run_eq_head?_endings (active : List (List Part)) (atLineStart : Bool) (text : List Char)
    (count : Nat) (best : Option Nat) :
    run active atLineStart text count best =
      ((active.flatMap (endings · atLineStart text)).head?.map (count + ·)).or best := by
  induction text generalizing active atLineStart count best with
  | nil =>
    simp only [run, endings]
    rw [← List.flatMap_assoc, head?_flatMap_endings, flatMap_endings_takeWhile]
    split <;> simp
  | cons c text ih =>
    -- What is in play after the character is what comes before the first stop; a match that ends
    -- with it is preferred to that stop, and the stop to the best match so far.
    simp only [run, endings]
    rw [← List.flatMap_assoc, head?_flatMap_endings, ← head?_flatMap_advance]
    generalize active.flatMap (fun parts => Part.movesOfAll ⟨atLineStart, some c⟩ parts []) = moves
    cases advance c (moves.takeWhile (!·.isStop)) with
    | nil => cases moves.any Move.isStop <;> simp
    | cons parts others =>
      simp only [ih]
      cases ((parts :: others).flatMap (endings · (c == '\n') text)).head? with
      | none => cases moves.any Move.isStop <;> simp
      | some length => simp [Nat.add_assoc, Nat.add_comm 1]

theorem zero_mem_flatMap_endings {next : Option Char} :
    0 ∈ moves.flatMap (Move.endings next ahead) ↔ ∃ stopped, .stop stopped ∈ moves := by
  rw [List.mem_flatMap]
  constructor
  · rintro ⟨move, hmove, hzero⟩
    cases move with
    | stop stopped => exact ⟨stopped, hmove⟩
    | read set left =>
      rw [Move.endings] at hzero
      split at hzero <;> simp at hzero
  · rintro ⟨stopped, hstopped⟩
    exact ⟨_, hstopped, List.mem_singleton.mpr rfl⟩

/-- A match may be empty if it may stop right away. -/
theorem zero_mem_endings {parts : List Part} {atLineStart : Bool} {text : List Char} :
    0 ∈ endings parts atLineStart text ↔
      ∃ stopped, .stop stopped ∈ Part.movesOfAll ⟨atLineStart, text.head?⟩ parts [] := by
  cases text with
  | nil => exact zero_mem_flatMap_endings
  | cons c text => exact zero_mem_flatMap_endings

/-- The preferred match is the first of all. -/
theorem preferredLength_eq_head?_endings (regex : Regex) (atLineStart : Bool) (text : List Char) :
    regex.preferredLength atLineStart text =
      (endings [.whole rootAddress regex] atLineStart text).head? := by
  rw [preferredLength, run_eq_head?_endings]
  simp

end Regex

end MotifSearch
