import MotifSearch.Proofs.Record.Mode
import MotifSearch.Proofs.Regex.Moves

/-!
# Progress through records

What is left to be matched after a character leads on to the same end, from the mode that comes
after the character. So the mode that a match has come to is known after every character, whatever
choices it has made: after a newline it is always the one in which records without notes may be
skipped, and before a record has begun no control character is read at all.

## Main definitions

* `Part.regex` — a part as an expression
* `Part.Lead` — parts lead from one mode to another one
* `Regex.Continues` — what is left after a character leads on from the mode after it

## Main results

* `Leads.moves_eq` — the character that follows makes no difference to the moves
* `Leads.step_of_stop_mem_moves` — what can be read after stopping could be read before
* `Leads.read_mem_moves`, `Lead.read_mem_movesOfAll` — what is left after a character leads on
-/

namespace MotifSearch

/-- A part as an expression. Further iterations are any number of them. -/
def Part.regex : Part → Regex
  | whole _ regex => regex
  | again _ greedy body => .loop .zeroOrMore greedy body

/-- Parts that are left lead from one mode to another one. -/
def Part.Lead (parts : List Part) (mode next : Mode) : Prop :=
  Regex.ItemsLead Record.matchedControl (parts.map Part.regex) mode next

namespace Record

theorem lineRest_leads : Regex.Leads matchedControl lineRest .running .ended :=
  .cat rfl .line (.chars rfl)

/-- A record without notes begins with a control character, and then its line goes on. -/
theorem moves_matchedControl (place : Place) (address : Nat) (passed : List Nat) :
    matchedControl.moves place address passed =
      [.read controls [.whole (2 * address + 1) lineRest]] := rfl

/-- The rest of a record begins with a character that does not go on with the pitch. -/
theorem exists_moves_rest {body : Regex} (hbody : body = restBody ∨ body = .group false restBody)
    (place : Place) (address : Nat) :
    ∃ bodyAddress, ∀ passed, body.moves place address passed =
      [.read pitchEnds [.whole bodyAddress lineItem]] := by
  rcases hbody with rfl | rfl
  · exact ⟨_, fun _ => rfl⟩
  · exact ⟨_, fun _ => rfl⟩

end Record

namespace Regex

variable {regex body : Regex} {mode next now : Mode} {place : Place} {address : Nat}
variable {passed stopped : List Nat} {set : CharSet} {left : List Part} {c : Char}

/-- The character that follows makes no difference to the moves. -/
theorem Leads.moves_eq (h : Leads Record.matchedControl regex mode next) (place other : Place)
    (hplace : place.atLineStart = other.atLineStart) (address : Nat) (passed : List Nat) :
    regex.moves place address passed = regex.moves other address passed := by
  -- The only assertion that an expression may have is on the start of a line.
  induction h generalizing address passed with
  | empty | chars => rfl
  | lineStart => simp only [moves, hplace]
  | rest hbody => rcases hbody with rfl | rfl <;> rfl
  | line | skip => rfl
  | group _ _ _ ih => exact ih _ _
  | optional _ _ ih =>
    have hinner := funext (ih (2 * address))
    simp only [moves, hinner]
  | oneOrMore _ _ _ _ ih _ =>
    have hinner := funext (ih (2 * address))
    simp only [moves, hinner]
  | zeroOrMore _ _ ih =>
    have hinner := funext (ih (2 * address))
    simp only [moves, hinner]
  | cat _ _ _ ihfirst ihrest =>
    have hrest := funext (ihrest (2 * address + 1))
    simp only [moves, ihfirst, hrest]
  | alt _ _ _ _ ihfirst ihrest => simp only [moves, ihfirst, ihrest]

/-- What can be read after an expression that stops could be read before it. -/
theorem Leads.step_of_stop_mem_moves (h : Leads Record.matchedControl regex mode next)
    (hstop : .stop stopped ∈ regex.moves place address passed)
    (hc : next.step place.atLineStart c = some now) : mode.step place.atLineStart c = some now := by
  induction h generalizing address passed stopped with
  | empty | optional | zeroOrMore => exact hc
  | chars => simp [moves] at hstop
  | lineStart =>
    -- The record begins here with the line, so it needs no tab.
    rw [moves] at hstop
    split at hstop
    · next hstart =>
      have htab : c ≠ '\t' := by
        rintro rfl
        cases hc
      rw [Mode.step, Mode.afterBetween?, if_neg htab, if_pos hstart]
      exact hc
    · cases hstop
  | rest | line =>
    obtain ⟨rfl, rfl⟩ := Mode.eq_of_step_closing hc
    rfl
  | skip => exact Mode.step_ended_of_step_between hc
  | group _ _ _ ih => exact ih hstop hc
  | oneOrMore _ _ _ _ ih =>
    rw [moves, firstMoves, stop_mem_continueWith] at hstop
    obtain ⟨between, hbetween, -⟩ := hstop
    exact ih hbetween hc
  | cat _ _ _ ihfirst ihrest =>
    rw [moves, stop_mem_continueWith] at hstop
    obtain ⟨between, hfirst, hrest⟩ := hstop
    exact ihfirst hfirst (ihrest hrest hc)
  | alt _ _ _ _ ihfirst ihrest =>
    rw [moves] at hstop
    split at hstop
    · simp at hstop
    · rcases List.mem_append.mp (mem_of_mem_stopOnce hstop) with h | h
      · exact ihfirst h hc
      · exact ihrest h hc

/-- A character may be read in a mode, and what is left then leads on from the mode after it. -/
def Continues (mode next : Mode) (atLineStart : Bool) (c : Char) (left : List Part) : Prop :=
  ∃ now, mode.step atLineStart c = some now ∧ Part.Lead left now next

theorem Continues.append {middle : Mode} {atLineStart : Bool} {after : List Part}
    (h : Continues mode middle atLineStart c left) (hafter : Part.Lead after middle next) :
    Continues mode next atLineStart c (left ++ after) := by
  obtain ⟨now, hstep, hleft⟩ := h
  refine ⟨now, hstep, ?_⟩
  rw [Part.Lead, List.map_append]
  exact ItemsLead.append hleft hafter

/-- The rest of a record without notes, and then the records after it. -/
private theorem continues_skip {more : List Part}
    (hmore : .read set more ∈ Record.matchedControl.moves place (2 * address) passed)
    (hc : set.contains c = true) :
    Continues .ended .between place.atLineStart c
      (more ++ [.again address false Record.matchedControl]) := by
  rw [Record.moves_matchedControl, List.mem_singleton] at hmore
  obtain ⟨rfl, rfl⟩ := Move.read.inj hmore
  exact ⟨.running, by rw [Mode.step, if_pos hc], .ended, Record.lineRest_leads, .between, .skip,
    rfl⟩

/-- The rest of a record begins with what cannot go on with the pitch. -/
private theorem continues_rest (hbody : body = Record.restBody ∨ body = group false Record.restBody)
    (hread : .read set left ∈ (loop .optional true body).moves place address passed)
    (hc : set.contains c = true) : Continues .sounding .closing place.atLineStart c left := by
  obtain ⟨bodyAddress, hmoves⟩ := Record.exists_moves_rest hbody place (2 * address)
  rw [moves, read_mem_choose, hmoves, List.mem_singleton] at hread
  obtain ⟨rfl, rfl⟩ := Move.read.inj hread.2
  have hnewline := Record.ne_newline_of_pitchEnds hc
  exact ⟨.running, by rw [Mode.step, if_neg hnewline, if_pos hc], .closing, .line, rfl⟩

/-- The rest of a line goes on until its newline. -/
private theorem continues_line {more : List Part} {between : List Nat}
    (hmore : .read set more ∈ (chars .inLine).moves place (2 * address) between)
    (hc : set.contains c = true) :
    Continues .running .closing place.atLineStart c
      (more ++ [.again address true (chars .inLine)]) := by
  obtain ⟨rfl, rfl⟩ : set = .inLine ∧ more = [] := by simpa [moves] using hmore
  have hnewline : c ≠ '\n' := by
    rintro rfl
    cases hc
  exact ⟨.running, by rw [Mode.step, if_neg hnewline], .closing, .line, rfl⟩

/-- What is left after a character leads on. -/
theorem Leads.read_mem_moves (h : Leads Record.matchedControl regex mode next)
    (hread : .read set left ∈ regex.moves place address passed) (hc : set.contains c = true) :
    Continues mode next place.atLineStart c left := by
  -- What is left of an item goes on with the items after it, and that of an iteration with the
  -- iterations after it. Where an item stops at once, the next one reads the character.
  induction h generalizing address passed left with
  | empty => simp [moves] at hread
  | chars h =>
    obtain ⟨rfl, rfl⟩ : set = _ ∧ left = [] := by simpa [moves] using hread
    exact ⟨_, CharSet.step_of_after? h hc _, rfl⟩
  | lineStart =>
    rw [moves] at hread
    split at hread <;> simp at hread
  | rest hbody => exact continues_rest hbody hread hc
  | line =>
    obtain ⟨between, more, hmore, rfl⟩ := exists_of_read_mem_loop (by decide) hread
    exact continues_line hmore hc
  | skip =>
    obtain ⟨between, more, hmore, rfl⟩ := exists_of_read_mem_loop (by decide) hread
    exact continues_skip hmore hc
  | group _ _ _ ih => exact ih hread
  | optional _ _ ih =>
    rw [moves, read_mem_choose] at hread
    exact ih hread.2
  | oneOrMore _ hnext _ hagain ih _ =>
    obtain ⟨between, more, hmore, rfl⟩ := exists_of_read_mem_loop (by decide) hread
    exact (ih hmore).append (ItemsLead.singleton (.zeroOrMore hnext hagain))
  | zeroOrMore hmode hbody ih =>
    obtain ⟨between, more, hmore, rfl⟩ := exists_of_read_mem_loop (by decide) hread
    exact (ih hmore).append (ItemsLead.singleton (.zeroOrMore hmode hbody))
  | cat _ hfirst hrest ihfirst ihrest =>
    rw [moves, read_mem_continueWith] at hread
    rcases hread with ⟨more, hmore, rfl⟩ | ⟨between, hbetween, hread⟩
    · exact (ihfirst hmore).append (ItemsLead.singleton hrest)
    · obtain ⟨now, hstep, hleft⟩ := ihrest hread
      exact ⟨now, hfirst.step_of_stop_mem_moves hbetween hstep, hleft⟩
  | alt _ _ _ _ ihfirst ihrest =>
    rw [moves] at hread
    split at hread
    · simp at hread
    · rw [read_mem_stopOnce, List.mem_append] at hread
      rcases hread with h | h
      · exact ihfirst h
      · exact ihrest h

end Regex

namespace Part

variable {part : Part} {parts left : List Part} {mode next now : Mode} {place : Place}
variable {passed stopped : List Nat} {set : CharSet} {c : Char}

theorem moves_eq (h : Regex.Leads Record.matchedControl part.regex mode next) (place other : Place)
    (hplace : place.atLineStart = other.atLineStart) (passed : List Nat) :
    part.moves place passed = part.moves other passed := by
  cases part with
  | whole address regex => exact Regex.Leads.moves_eq h place other hplace address passed
  | again address greedy body =>
    have hinner : body.moves place (2 * address) = body.moves other (2 * address) := by
      cases h with
      | line | skip => rfl
      | zeroOrMore _ hbody => exact funext (hbody.moves_eq place other hplace (2 * address))
    simp only [moves, hinner]

theorem step_of_stop_mem_moves (h : Regex.Leads Record.matchedControl part.regex mode next)
    (hstop : .stop stopped ∈ part.moves place passed)
    (hc : next.step place.atLineStart c = some now) : mode.step place.atLineStart c = some now := by
  cases part with
  | whole address regex => exact Regex.Leads.step_of_stop_mem_moves h hstop hc
  | again address greedy body =>
    cases h with
    | line =>
      obtain ⟨rfl, rfl⟩ := Mode.eq_of_step_closing hc
      rfl
    | skip => exact Mode.step_ended_of_step_between hc
    | zeroOrMore => exact hc

theorem read_mem_moves (h : Regex.Leads Record.matchedControl part.regex mode next)
    (hread : .read set left ∈ part.moves place passed) (hc : set.contains c = true) :
    Regex.Continues mode next place.atLineStart c left := by
  cases part with
  | whole address regex => exact Regex.Leads.read_mem_moves h hread hc
  | again address greedy body =>
    obtain ⟨between, more, hmore, rfl⟩ := Regex.exists_of_read_mem_againMoves hread
    cases h with
    | line => exact Regex.continues_line hmore hc
    | skip => exact Regex.continues_skip hmore hc
    | zeroOrMore hmode hbody =>
      exact (hbody.read_mem_moves hmore hc).append
        (Regex.ItemsLead.singleton (.zeroOrMore hmode hbody))

/-- The character that follows makes no difference to the moves of parts. -/
theorem Lead.movesOfAll_eq (h : Lead parts mode next) (place other : Place)
    (hplace : place.atLineStart = other.atLineStart) (passed : List Nat) :
    movesOfAll place parts passed = movesOfAll other parts passed := by
  induction parts generalizing mode passed with
  | nil => rfl
  | cons part parts ih =>
    obtain ⟨middle, hpart, hparts⟩ := h
    rw [movesOfAll, movesOfAll, moves_eq hpart place other hplace]
    -- The moves of the first part are the same, and so are those after each of its stops.
    congr 1
    funext passed
    exact ih hparts passed

/-- What can be read after parts that stop could be read before them. -/
theorem Lead.step_of_stop_mem_movesOfAll (h : Lead parts mode next)
    (hstop : .stop stopped ∈ movesOfAll place parts passed)
    (hc : next.step place.atLineStart c = some now) : mode.step place.atLineStart c = some now := by
  induction parts generalizing mode passed with
  | nil =>
    obtain rfl : mode = next := h
    exact hc
  | cons part parts ih =>
    obtain ⟨middle, hpart, hparts⟩ := h
    rw [movesOfAll, Regex.stop_mem_continueWith] at hstop
    obtain ⟨between, hbetween, hstop⟩ := hstop
    exact step_of_stop_mem_moves hpart hbetween (ih hparts hstop)

/-- What is left after a character leads on from the mode after the character. -/
theorem Lead.read_mem_movesOfAll (h : Lead parts mode next)
    (hread : .read set left ∈ movesOfAll place parts passed) (hc : set.contains c = true) :
    Regex.Continues mode next place.atLineStart c left := by
  induction parts generalizing mode passed with
  | nil => simp [movesOfAll] at hread
  | cons part parts ih =>
    obtain ⟨middle, hpart, hparts⟩ := h
    rw [movesOfAll, Regex.read_mem_continueWith] at hread
    rcases hread with ⟨more, hmore, rfl⟩ | ⟨between, hbetween, hread⟩
    · exact (read_mem_moves hpart hmore hc).append hparts
    · obtain ⟨now, hstep, hleft⟩ := ih hparts hread
      exact ⟨now, step_of_stop_mem_moves hpart hbetween hstep, hleft⟩

end Part

end MotifSearch
