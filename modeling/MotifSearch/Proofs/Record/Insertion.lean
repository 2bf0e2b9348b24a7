import MotifSearch.Proofs.Record.Closing
import MotifSearch.Proofs.Regex.Meaning

/-!
# Inserting a record without notes

A record without notes that is inserted between two lines can be skipped by every match that has
gone on beyond that place, and then ends just as much later. But a match that may also end in that
place prefers to do so now: what it prefers to read after the place no longer stands there, and
skipping comes last.

## Main definitions

* `Record.IsControl` — a line without notes
* `Inserted` — how the first one among the lengths of matches changes

## Main results

* `endings_control` — the endings after a place where a line without notes is inserted
* `inserted_endings` — a line without notes is inserted where a line begins
-/

namespace MotifSearch

/-- A line without notes, its newline included. -/
def Record.IsControl (line : List Char) : Prop :=
  ∃ c text, line = c :: (text ++ ['\n']) ∧ controls.contains c = true ∧ '\n' ∉ text

/-- Another line begins after a line. -/
theorem Record.IsControl.lineStartAfter_eq {line : List Char} (h : Record.IsControl line)
    (atLineStart : Bool) : lineStartAfter atLineStart line = true := by
  obtain ⟨c, text, rfl, -, -⟩ := h
  simp

/-- How the lengths of matches change where `extra` characters are inserted after `count`
characters, as far as the first one of them goes. -/
structure Inserted (count extra : Nat) (before after : List Nat) : Prop where
  eq_nil : before = [] → after = []
  keeps : ∀ length, before.head? = some length → length ≤ count → after.head? = some length
  shifts : ∀ length, before.head? = some length → count < length →
    after.head? = some (length + extra) ∨ after.head? = some count ∧ count ∈ before

namespace Inserted

variable {count extra : Nat} {before after moreBefore moreAfter : List Nat}

theorem nil : Inserted count extra [] [] :=
  ⟨fun _ => rfl, by simp, by simp⟩

theorem zero : Inserted count extra [0] [0] :=
  ⟨by simp, fun _ h _ => h, by simp⟩

theorem append (h : Inserted count extra before after)
    (hmore : Inserted count extra moreBefore moreAfter) :
    Inserted count extra (before ++ moreBefore) (after ++ moreAfter) := by
  cases before with
  | nil =>
    rw [h.eq_nil rfl]
    exact hmore
  | cons first others =>
    have hhead : ∀ length, after.head? = some length → (after ++ moreAfter).head? = some length :=
      fun length hlength => by rw [List.head?_append, hlength, Option.some_or]
    refine ⟨by simp, ?_, ?_⟩
    · intro length hlength hle
      exact hhead length (h.keeps length hlength hle)
    · intro length hlength hlt
      rcases h.shifts length hlength hlt with h | ⟨h, hmem⟩
      · exact Or.inl (hhead _ h)
      · exact Or.inr ⟨hhead _ h, List.mem_append_left _ hmem⟩

theorem flatMap {α : Type} {items : List α} {f g : α → List Nat}
    (h : ∀ item ∈ items, Inserted count extra (f item) (g item)) :
    Inserted count extra (items.flatMap f) (items.flatMap g) := by
  induction items with
  | nil => exact nil
  | cons item items ih =>
    have hitem := h item List.mem_cons_self
    exact hitem.append (ih fun other hother => h other (List.mem_cons_of_mem item hother))

theorem succ (h : Inserted count extra before after) :
    Inserted (count + 1) extra (before.map (· + 1)) (after.map (· + 1)) := by
  refine ⟨?_, ?_, ?_⟩
  · intro hnil
    rw [h.eq_nil (List.map_eq_nil_iff.mp hnil), List.map_nil]
  · intro length hlength hle
    rw [List.head?_map, Option.map_eq_some_iff] at hlength
    obtain ⟨shorter, hshorter, rfl⟩ := hlength
    rw [List.head?_map, h.keeps shorter hshorter (Nat.le_of_succ_le_succ hle), Option.map_some]
  · intro length hlength hlt
    rw [List.head?_map, Option.map_eq_some_iff] at hlength
    obtain ⟨shorter, hshorter, rfl⟩ := hlength
    rcases h.shifts shorter hshorter (Nat.lt_of_succ_lt_succ hlt) with h | ⟨h, hmem⟩
    · left
      rw [List.head?_map, h, Option.map_some, Nat.add_right_comm]
    · right
      rw [List.head?_map, h, Option.map_some]
      exact ⟨rfl, List.mem_map_of_mem hmem⟩

/-- Some matches may stop in the place, and all others end later. -/
theorem of_stops {stops : List Nat} (hstops : ∀ length ∈ stops, length = 0)
    (hzero : 0 ∈ before ↔ 0 ∈ stops) :
    Inserted 0 extra before (stops ++ before.map (· + extra)) := by
  cases stops with
  | nil =>
    -- No match may stop in the place, so all of them end later.
    refine ⟨?_, ?_, ?_⟩
    · rintro rfl
      rfl
    · intro length hlength hle
      obtain rfl := Nat.le_zero.mp hle
      exact absurd (hzero.mp (List.mem_of_mem_head? hlength)) List.not_mem_nil
    · intro length hlength _
      left
      rw [List.nil_append, List.head?_map, hlength, Option.map_some]
  | cons stop stops =>
    -- A match that stops in the place comes first, whatever was preferred before.
    obtain rfl := hstops stop List.mem_cons_self
    have hmem : 0 ∈ before := hzero.mpr List.mem_cons_self
    refine ⟨?_, ?_, ?_⟩
    · rintro rfl
      exact absurd hmem List.not_mem_nil
    · intro length _ hle
      rw [Nat.le_zero.mp hle]
      rfl
    · intro length _ _
      exact Or.inr ⟨rfl, hmem⟩

end Inserted

namespace Regex

variable {parts others : List Part} {mode next : Mode} {text : List Char} {atLineStart : Bool}

/-- The moves right after a record: go on with another record, or else skip one without notes. -/
theorem movesOfAll_again (place : Place) (address : Nat) (others : List Part) :
    Part.movesOfAll place (.again address false Record.matchedControl :: others) [] =
      Part.movesOfAll place others [2 * address + 1] ++
        [.read Record.controls (.whole (2 * (2 * address) + 1) Record.lineRest ::
          .again address false Record.matchedControl :: others)] := by
  simp [Part.movesOfAll, Part.moves, againMoves, choose, Record.moves_matchedControl, continueWith,
    stopOnce, Move.isStop]

/-- After a place where a line without notes is inserted, a match ends right there if it may, and
otherwise just as much later. -/
theorem endings_control (h : Part.Lead parts .ended .between) {line : List Char}
    (hline : Record.IsControl line) (text : List Char) :
    Inserted 0 line.length (endings parts true text) (endings parts true (line ++ text)) := by
  obtain ⟨address, others, hothers, hmoves⟩ := exists_again_of_lead h .skip
  obtain ⟨c, rest, rfl, hc, hrest⟩ := hline
  have hendings := endings_congr fun place => hmoves place []
  rw [hendings, hendings]
  have hagain := fun place => movesOfAll_again place address others
  -- A match may stop before the line, or else skip it and be where it was without the line.
  generalize .again address false Record.matchedControl :: others = parts at hagain ⊢
  generalize hstops : (Part.movesOfAll ⟨true, some c⟩ others [2 * address + 1]).flatMap
    (Move.endings (some c) fun left => endings left (c == '\n') (rest ++ '\n' :: text)) = stops
  have hafter : endings parts true (c :: (rest ++ ['\n']) ++ text) =
      stops ++ (endings parts true text).map (· + (c :: (rest ++ ['\n'])).length) := by
    simp [endings, hagain, hstops, Move.endings, hc, endings_line _ parts hrest,
      Function.comp_def, Nat.add_assoc]
  have hzeros : ∀ length ∈ stops, length = 0 := by
    intro length hlength
    rw [← hstops, List.mem_flatMap] at hlength
    obtain ⟨move, hmove, hlength⟩ := hlength
    cases move with
    | stop stopped => exact List.mem_singleton.mp hlength
    | read set left =>
      -- Nothing that begins another record reads a control character.
      by_cases hset : set.contains c = true
      · obtain ⟨now, hstep, -⟩ := hothers.read_mem_movesOfAll hmove hset
        rw [Mode.step, Mode.afterBetween?_eq_none (Or.inr hc)] at hstep
        cases hstep
      · simp [Move.endings, hset] at hlength
  -- The line is the next text now, but stopping does not depend on what follows.
  have hzero : 0 ∈ endings parts true text ↔ 0 ∈ stops := by
    rw [zero_mem_endings, ← hstops, zero_mem_flatMap_endings, hagain,
      hothers.movesOfAll_eq ⟨true, text.head?⟩ ⟨true, some c⟩ rfl]
    simp
  rw [hafter]
  exact Inserted.of_stops hzeros hzero

/-- A line without notes is inserted where a line begins, after some characters of which the first
one begins a match. -/
theorem inserted_endings {line : List Char} (hline : Record.IsControl line) (text : List Char)
    {before : List Char} {mode : Mode} (h : Part.Lead parts mode .between)
    (hmode : before = [] → mode = .ended) (hbefore : lineStartAfter atLineStart before = true) :
    Inserted before.length line.length (endings parts atLineStart (before ++ text))
      (endings parts atLineStart (before ++ (line ++ text))) := by
  -- Character by character, what is left leads on; where the line is reached, a record has ended.
  induction before generalizing parts atLineStart mode with
  | nil =>
    obtain rfl := hmode rfl
    obtain rfl : atLineStart = true := hbefore
    exact endings_control h hline text
  | cons c before ih =>
    simp only [List.cons_append, endings]
    apply Inserted.flatMap
    intro move hmove
    cases move with
    | stop stopped => exact .zero
    | read set left =>
      by_cases hset : set.contains c = true
      · obtain ⟨now, hstep, hleft⟩ := h.read_mem_movesOfAll hmove hset
        have hended : before = [] → now = .ended := by
          rintro rfl
          exact (Mode.eq_ended_of_step hstep).mpr (by simpa using hbefore)
        simpa [Move.endings, hset] using (ih hleft hended hbefore).succ
      · simpa [Move.endings, hset] using Inserted.nil

end Regex

end MotifSearch
