import MotifSearch.Proofs.Record.Progress
import MotifSearch.Proofs.Regex.Endings

/-!
# What closes a record

Where a record is being closed, hardly any choice is left. What reads the rest of a line and what
skips records without notes are loops, and what is left of a match begins with such a loop; between
the two, the newline is read and nothing else. So a match reads the rest of a line up to its end,
whatever stands there.

## Main definitions

* `Mode.LoopsOver` — the loop that goes on in a mode, and the mode after it

## Main results

* `Leads.exists_again`, `exists_again_of_lead` — what is left begins with a loop
* `exists_newline_of_lead` — what is left begins with a newline
* `endings_again_line`, `endings_line` — the rest of a line is read up to its end
* `endings_running` — and so it is by every match that has come to it
-/

namespace MotifSearch

/-- The loop that goes on in a mode, and the mode after it. -/
inductive Mode.LoopsOver : Mode → (greedy : Bool) → (body : Regex) → Mode → Prop
  | line : LoopsOver running true (.chars .inLine) closing
  | skip : LoopsOver ended false Record.matchedControl between

namespace Regex

variable {parts others : List Part} {mode next middle : Mode} {text : List Char}
variable {atLineStart greedy : Bool} {regex body : Regex}

/-- Parts with the same moves end in the same places. -/
theorem endings_congr {first second : List Part}
    (h : ∀ place, Part.movesOfAll place first [] = Part.movesOfAll place second [])
    (atLineStart : Bool) (text : List Char) :
    endings first atLineStart text = endings second atLineStart text := by
  cases text with
  | nil => simp only [endings, h]
  | cons c text => simp only [endings, h]

/-- An expression that may stand where a loop goes on begins with the loop. -/
theorem Leads.exists_again (h : Leads Record.matchedControl regex mode next)
    (hloop : mode.LoopsOver greedy body middle) (address : Nat) :
    ∃ loopAddress others, Part.Lead others middle next ∧
      ∀ place passed, regex.moves place address passed =
        Part.movesOfAll place (.again loopAddress greedy body :: others) passed := by
  -- Only the loop itself and a sequence that begins with it may stand here.
  induction h generalizing address with
  | empty hopen | group hopen | optional hopen | oneOrMore hopen | zeroOrMore hopen | alt hopen =>
    cases hloop <;> cases hopen
  | chars h => cases hloop <;> cases h
  | lineStart | rest => cases hloop
  | line | skip =>
    cases hloop
    refine ⟨address, [], rfl, ?_⟩
    intro place passed
    rw [movesOfAll_singleton]
    rfl
  | @cat first rest mode middle next _ _ hrest ih _ =>
    obtain ⟨loopAddress, others, hothers, hmoves⟩ := ih hloop (2 * address)
    refine ⟨loopAddress, others ++ [.whole (2 * address + 1) rest], ?_, ?_⟩
    · rw [Part.Lead, List.map_append]
      exact ItemsLead.append hothers (ItemsLead.singleton hrest)
    · intro place passed
      rw [← List.cons_append, movesOfAll_concat, ← hmoves]
      rfl

/-- Parts that are left where a loop goes on begin with the loop. -/
theorem exists_again_of_lead (h : Part.Lead parts mode .between)
    (hloop : mode.LoopsOver greedy body middle) :
    ∃ address others, Part.Lead others middle .between ∧
      ∀ place passed, Part.movesOfAll place parts passed =
        Part.movesOfAll place (.again address greedy body :: others) passed := by
  cases parts with
  | nil =>
    obtain rfl : mode = .between := h
    cases hloop
  | cons part parts =>
    obtain ⟨after, hpart, hparts⟩ := h
    cases part with
    | whole address regex =>
      obtain ⟨loopAddress, others, hothers, hmoves⟩ := hpart.exists_again hloop address
      refine ⟨loopAddress, others ++ parts, ?_, ?_⟩
      · rw [Part.Lead, List.map_append]
        exact ItemsLead.append hothers hparts
      · intro place passed
        rw [← List.cons_append, movesOfAll_append, ← hmoves]
        rfl
    | again address greedy body =>
      cases hpart with
      | line | skip =>
        cases hloop
        exact ⟨address, parts, hparts, fun _ _ => rfl⟩
      | zeroOrMore hopen => cases hloop <;> cases hopen

/-- An expression that may stand where nothing but the newline is left of a record reads it. -/
theorem Leads.exists_newline (h : Leads Record.matchedControl regex .closing next) (address : Nat) :
    ∃ after, Part.Lead after .ended next ∧
      ∀ place passed, regex.moves place address passed = [.read (.single '\n') after] := by
  generalize hmode : Mode.closing = mode at h
  induction h generalizing address with
  | empty hopen | group hopen | optional hopen | oneOrMore hopen | zeroOrMore hopen | alt hopen =>
    subst hmode
    cases hopen
  | chars h =>
    subst hmode
    simp only [CharSet.after?] at h
    split at h
    · next heq =>
      subst heq
      obtain rfl := Option.some.inj h
      exact ⟨[], rfl, fun _ _ => rfl⟩
    · cases h
  | lineStart | rest | line | skip => cases hmode
  | @cat first rest mode middle next _ _ hrest ih _ =>
    obtain ⟨after, hafter, hmoves⟩ := ih (2 * address) hmode
    refine ⟨after ++ [.whole (2 * address + 1) rest], ?_, ?_⟩
    · rw [Part.Lead, List.map_append]
      exact ItemsLead.append hafter (ItemsLead.singleton hrest)
    · intro place passed
      rw [moves, hmoves]
      rfl

/-- Parts that are left where nothing but the newline is left of a record read it. -/
theorem exists_newline_of_lead (h : Part.Lead parts .closing .between) :
    ∃ after, Part.Lead after .ended .between ∧
      ∀ place passed, Part.movesOfAll place parts passed = [.read (.single '\n') after] := by
  cases parts with
  | nil => cases h
  | cons part parts =>
    obtain ⟨middle, hpart, hparts⟩ := h
    cases part with
    | whole address regex =>
      obtain ⟨after, hafter, hmoves⟩ :=
        Leads.exists_newline (show Leads _ regex .closing middle from hpart) address
      refine ⟨after ++ parts, ?_, ?_⟩
      · rw [Part.Lead, List.map_append]
        exact ItemsLead.append hafter hparts
      · intro place passed
        rw [Part.movesOfAll, Part.moves, hmoves]
        rfl
    | again address greedy body =>
      cases hpart with
      | zeroOrMore hopen => cases hopen

section Line

variable {after : List Part}

/-- A line is read character by character, and then its newline. -/
theorem movesOfAll_line {place : Place}
    (hothers : ∀ passed, Part.movesOfAll place others passed = [.read (.single '\n') after])
    (address : Nat) :
    Part.movesOfAll place (.again address true (.chars .inLine) :: others) [] =
      [.read .inLine (.again address true (.chars .inLine) :: others),
        .read (.single '\n') after] := by
  simp [Part.movesOfAll, Part.moves, againMoves, choose, moves, continueWith, stopOnce, hothers]

/-- The rest of a line is read up to its end, if the newline is read after it. -/
theorem endings_again_line
    (hothers : ∀ place passed,
      Part.movesOfAll place others passed = [.read (.single '\n') after])
    (address : Nat) {line : List Char} (hline : '\n' ∉ line) (atLineStart : Bool)
    (text : List Char) :
    endings (.again address true (.chars .inLine) :: others) atLineStart (line ++ '\n' :: text) =
      (endings after true text).map (· + (line.length + 1)) := by
  have hmoves := fun place => movesOfAll_line (hothers place)
  induction line generalizing atLineStart with
  | nil => simp [endings, hmoves, Move.endings, CharSet.contains]
  | cons c line ih =>
    have hc : c ≠ '\n' := fun heq => hline (heq ▸ List.mem_cons_self)
    have hrest : '\n' ∉ line := fun hmem => hline (List.mem_cons_of_mem c hmem)
    simp [endings, hmoves, Move.endings, CharSet.contains, hc, ih hrest, Function.comp_def,
      Nat.add_assoc]

end Line

/-- The rest of a line that has been begun is read up to its end. -/
theorem endings_line (address : Nat) (after : List Part) {line : List Char} (hline : '\n' ∉ line)
    (atLineStart : Bool) (text : List Char) :
    endings (.whole address Record.lineRest :: after) atLineStart (line ++ '\n' :: text) =
      (endings after true text).map (· + (line.length + 1)) := by
  have hnewline : ∀ place passed, Part.movesOfAll place
      (.whole (2 * address + 1) (.plain '\n') :: after) passed = [.read (.single '\n') after] :=
    fun _ _ => rfl
  rw [← endings_again_line hnewline (2 * address) hline]
  apply endings_congr
  intro place
  rw [movesOfAll_line (hnewline place)]
  simp [Part.movesOfAll, Part.moves, Record.lineRest, Record.lineItem, moves, nullable, againMoves,
    choose, continueWith, stopOnce, plain]

/-- Every match that has come to the rest of a line reads it up to its end. -/
theorem endings_running (h : Part.Lead parts .running .between) :
    ∃ after, Part.Lead after .ended .between ∧ ∀ line text atLineStart, '\n' ∉ line →
      endings parts atLineStart (line ++ '\n' :: text) =
        (endings after true text).map (· + (line.length + 1)) := by
  obtain ⟨address, others, hothers, hmoves⟩ := exists_again_of_lead h .line
  obtain ⟨after, hafter, hnewline⟩ := exists_newline_of_lead hothers
  refine ⟨after, hafter, ?_⟩
  intro line text atLineStart hline
  rw [endings_congr fun place => hmoves place [], endings_again_line hnewline address hline]

end Regex

end MotifSearch
