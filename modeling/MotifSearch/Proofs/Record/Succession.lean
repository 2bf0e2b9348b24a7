import MotifSearch.Kern.Voices
import MotifSearch.Proofs.Record.NoteMeaning

/-!
# Notes in successive records

A sequence of notes takes one record for each of them, and skips the records without notes that
stand between these. Each record but the first one has to spell its note in the column with which
it begins. Which lines that are is determined: only after the last note may a match go on, over
records without notes.

## Main definitions

* `Record.terminatedText` — the text of lines each of which is ended by a newline
* `Record.leadingToken` — the token in which a record has to spell its note
* `Record.Begins` — a match of a note begins within a record
* `Record.linesTaken?` — how many lines some notes take
* `Record.succession` — what notes mean that follow another note

## Main results

* `succession_of_linesTaken?` — the lines that some notes take are matched
* `linesTaken?_of_succession` — no others are, but for records without notes at the end
-/

namespace MotifSearch.Record

/-- The text of lines each of which is ended by a newline. -/
def terminatedText (lines : List (List Char)) : List Char :=
  lines.flatMap (· ++ ['\n'])

/-- Whether a line is a record without notes. -/
def isControl (line : List Char) : Bool :=
  line.head?.any controls.contains

/-- The token of a line in which a match can go on: the first one, or the second one if the first
one is empty. -/
def leadingToken (line : List Char) : List Char :=
  match Kern.tokens line with
  | [] :: token :: _ => token
  | token :: _ => token
  | [] => []

/-- Whether a match of a note begins with the first character of what is left of a line: the column
of the note begins there, or else the tab before it stands there. -/
def Begins (note : NotePattern) (atLineStart : Bool) (part : List Char) : Prop :=
  atLineStart = true ∧ note.Spelled part ∨ ∃ rest, part = '\t' :: rest ∧ note.Spelled rest

/-- How many lines some notes take, one after the other, with the records without notes between
them. There is none if some record does not spell its note. -/
def linesTaken? : List NotePattern → List (List Char) → Option Nat
  | [], _ => some 0
  | _ :: _, [] => none
  | note :: notes, line :: lines =>
    if isControl line then (linesTaken? (note :: notes) lines).map (· + 1)
    else if note.Spelled (leadingToken line) then (linesTaken? notes lines).map (· + 1)
    else none

/-- What notes mean that follow another note. -/
def succession (notes : List NotePattern) : Meaning :=
  skipped.followedBy (.sequence (notes.map NotePattern.meaning))

section Text

variable {line other first second : List Char} {lines : List (List Char)}

@[simp] theorem terminatedText_nil : terminatedText [] = [] := rfl

@[simp] theorem terminatedText_cons :
    terminatedText (line :: lines) = line ++ '\n' :: terminatedText lines := by
  simp [terminatedText]

theorem terminatedText_append (lines more : List (List Char)) :
    terminatedText (lines ++ more) = terminatedText lines ++ terminatedText more := by
  simp [terminatedText]

/-- Lines are some of them and then the others. -/
theorem terminatedText_take_drop (lines : List (List Char)) (count : Nat) (tail : List Char) :
    terminatedText (lines.take count) ++ (terminatedText (lines.drop count) ++ tail) =
      terminatedText lines ++ tail := by
  rw [← List.append_assoc, ← terminatedText_append, List.take_append_drop]

@[simp] theorem lineStartAfter_terminatedText (lines : List (List Char)) :
    lineStartAfter true (terminatedText lines) = true := by
  induction lines with
  | nil => rfl
  | cons line lines ih => simp [ih]

/-- A text has only one first line. -/
theorem append_newline_inj (hline : '\n' ∉ line) (hother : '\n' ∉ other)
    (h : line ++ '\n' :: first = other ++ '\n' :: second) : line = other ∧ first = second := by
  induction line generalizing other with
  | nil =>
    cases other with
    | nil => exact ⟨rfl, (List.cons.inj h).2⟩
    | cons c other => exact absurd List.mem_cons_self ((List.cons.inj h).1 ▸ hother)
  | cons c line ih =>
    cases other with
    | nil => exact absurd List.mem_cons_self ((List.cons.inj h).1 ▸ hline)
    | cons d other =>
      obtain ⟨rfl, hrest⟩ := List.cons.inj h
      obtain ⟨rfl, rfl⟩ := ih (fun hmem => hline (List.mem_cons_of_mem c hmem))
        (fun hmem => hother (List.mem_cons_of_mem c hmem)) hrest
      exact ⟨rfl, rfl⟩

/-- The first line of a text whose lines are known. -/
theorem exists_cons_of_eq_terminatedText {tail rest : List Char} (hother : '\n' ∉ other)
    (hlines : ∀ line ∈ lines, '\n' ∉ line) (htail : '\n' ∉ tail)
    (h : other ++ '\n' :: rest = terminatedText lines ++ tail) :
    ∃ more, lines = other :: more ∧ rest = terminatedText more ++ tail := by
  cases lines with
  | nil => exact absurd (by simp : '\n' ∈ other ++ '\n' :: rest) (h ▸ htail)
  | cons line lines =>
    rw [terminatedText_cons, List.append_assoc, List.cons_append] at h
    obtain ⟨rfl, rfl⟩ := append_newline_inj hother (hlines line List.mem_cons_self) h
    exact ⟨lines, rfl, rfl⟩

/-- A text of one line has no other lines. -/
theorem eq_singleton_of_terminatedText (hother : '\n' ∉ other)
    (hlines : ∀ line ∈ lines, '\n' ∉ line) (h : other ++ ['\n'] = terminatedText lines) :
    lines = [other] := by
  rw [← List.append_nil (terminatedText lines)] at h
  obtain ⟨more, rfl, hmore⟩ :=
    exists_cons_of_eq_terminatedText hother hlines List.not_mem_nil h
  cases more with
  | nil => rfl
  | cons line more => simp at hmore

end Text

section Tokens

variable {line token : List Char} {others : List (List Char)} {note : NotePattern}

theorem intercalate_cons {α : Type} (separator : α) (first : List α) (others : List (List α)) :
    [separator].intercalate (first :: others) = first ++ others.flatMap (separator :: ·) := by
  induction others generalizing first with
  | nil => simp
  | cons other others ih =>
    rw [List.intercalate_cons_cons, ih, List.flatMap_cons]
    simp

theorem not_mem_of_mem_splitOn {α : Type} [BEq α] [LawfulBEq α] {separator : α}
    {text word : List α} (h : word ∈ text.splitOn separator) : separator ∉ word := by
  induction text generalizing word with
  | nil =>
    obtain rfl : word = [] := by simpa using h
    exact List.not_mem_nil
  | cons c text ih =>
    have hne := List.splitOn_ne_nil separator text
    obtain ⟨first, others, hsplit⟩ := List.exists_cons_of_ne_nil hne
    rw [List.splitOn_cons_eq_if_modifyHead] at h
    split at h
    · rcases List.mem_cons.mp h with rfl | h
      · exact List.not_mem_nil
      · exact ih h
    · next hc =>
      rw [hsplit, List.modifyHead_cons] at h
      rcases List.mem_cons.mp h with rfl | h
      · have hfirst := ih (hsplit ▸ List.mem_cons_self)
        have hne : separator ≠ c := fun heq => hc (beq_iff_eq.mpr heq.symm)
        simp [hne, hfirst]
      · exact ih (hsplit ▸ List.mem_cons_of_mem first h)

/-- A line is its first token and each other one after its tab. -/
theorem exists_tokens (line : List Char) :
    ∃ first others, Kern.tokens line = first :: others ∧
      line = first ++ others.flatMap ('\t' :: ·) ∧ ∀ token ∈ first :: others, '\t' ∉ token := by
  obtain ⟨first, others, htokens⟩ := List.exists_cons_of_ne_nil (List.splitOn_ne_nil '\t' line)
  refine ⟨first, others, htokens, ?_, fun token htoken => ?_⟩
  · rw [← intercalate_cons, ← htokens, List.intercalate_splitOn]
  · exact not_mem_of_mem_splitOn (htokens ▸ htoken)

/-- The last line of a text is not ended by a newline. -/
theorem unlines_append_singleton (lines : List (List Char)) (last : List Char) :
    Kern.unlines (lines ++ [last]) = terminatedText lines ++ last := by
  unfold Kern.unlines
  induction lines with
  | nil => simp
  | cons line lines ih =>
    cases lines with
    | nil => simp
    | cons next lines =>
      rw [List.cons_append, List.cons_append, List.intercalate_cons_cons, ← List.cons_append, ih]
      simp

/-- A score is its lines, of which the last one is not ended by a newline. -/
theorem exists_terminatedText (score : List Char) :
    ∃ tail, score = terminatedText (Kern.lines score).dropLast ++ tail ∧ '\n' ∉ tail ∧
      ∀ line ∈ (Kern.lines score).dropLast, '\n' ∉ line := by
  have hmem : ∀ line ∈ Kern.lines score, '\n' ∉ line := fun line => not_mem_of_mem_splitOn
  have hne : Kern.lines score ≠ [] := List.splitOn_ne_nil '\n' score
  refine ⟨(Kern.lines score).getLast hne, ?_, hmem _ (List.getLast_mem hne),
    fun line hline => hmem line (List.dropLast_subset _ hline)⟩
  rw [← unlines_append_singleton, List.dropLast_concat_getLast, Kern.unlines_lines]

/-- Whether a token spells a note does not depend on the tokens after it. -/
theorem spelled_append_tokens (htoken : '\t' ∉ token) :
    note.Spelled (token ++ others.flatMap ('\t' :: ·)) ↔ note.Spelled token := by
  have htake : (token ++ others.flatMap ('\t' :: ·)).takeWhile (· ≠ '\t') = token := by
    have hall : ∀ c ∈ token, decide (c ≠ '\t') = true :=
      fun c hc => decide_eq_true fun heq => htoken (heq ▸ hc)
    rw [List.takeWhile_append_of_pos hall]
    cases others <;> simp
  rw [← NotePattern.spelled_takeWhile, htake]

theorem not_spelled_nil (note : NotePattern) : ¬ note.Spelled [] := by
  intro h
  obtain ⟨c, text, heq, -⟩ := NotePattern.exists_cons_of_spelled h
  cases heq

theorem not_spelled_tab {rest : List Char} : ¬ note.Spelled ('\t' :: rest) := by
  intro h
  obtain ⟨c, text, heq, -, hc⟩ := NotePattern.exists_cons_of_spelled h
  exact hc (List.cons.inj heq).1.symm

/-- A match that begins with a line begins in its leading token. -/
theorem spelled_leadingToken : note.Spelled (leadingToken line) ↔ Begins note true line := by
  obtain ⟨first, others, htokens, rfl, htab⟩ := exists_tokens line
  obtain ⟨hfirst, hothers⟩ := List.forall_mem_cons.mp htab
  rw [leadingToken, htokens]
  cases first with
  | cons c first =>
    -- The first token is not empty, so no match begins with a tab.
    have hc : c ≠ '\t' := fun heq => hfirst (heq ▸ List.mem_cons_self)
    rw [Begins, spelled_append_tokens hfirst]
    simp [hc]
  | nil =>
    -- The line begins with a tab, if there is anything on it, and the empty token spells no note.
    cases others with
    | nil => simp [Begins, not_spelled_nil]
    | cons token others =>
      obtain ⟨htoken, -⟩ := List.forall_mem_cons.mp hothers
      constructor
      · intro h
        exact Or.inr ⟨_, rfl, (spelled_append_tokens htoken).mpr h⟩
      · rintro (⟨-, h⟩ | ⟨rest, hrest, h⟩)
        · exact absurd h not_spelled_tab
        · obtain rfl := (List.cons.inj hrest).2
          exact (spelled_append_tokens htoken).mp h

end Tokens

@[simp] theorem linesTaken?_nil {lines : List (List Char)} : linesTaken? [] lines = some 0 := by
  cases lines <;> rfl

section Meaning

variable {note : NotePattern} {notes : List NotePattern} {atLineStart : Bool}
variable {line part word after tail : List Char} {lines : List (List Char)} {count : Nat}

/-- A record spells a note if a match of the note begins there. -/
theorem record_iff : note.record atLineStart word after ↔
    ∃ part, word = part ++ ['\n'] ∧ '\n' ∉ part ∧ Begins note atLineStart part := by
  constructor
  · rintro ⟨lead, line, rfl, ⟨rfl, hstart⟩ | rfl, hline, hspelled⟩
    · exact ⟨line, rfl, hline, Or.inl ⟨hstart, hspelled⟩⟩
    · exact ⟨'\t' :: line, rfl, by simpa using hline, Or.inr ⟨line, rfl, hspelled⟩⟩
  · rintro ⟨part, rfl, hpart, ⟨hstart, hspelled⟩ | ⟨line, rfl, hspelled⟩⟩
    · exact ⟨[], part, rfl, Or.inl ⟨rfl, hstart⟩, hpart, hspelled⟩
    · exact ⟨['\t'], line, rfl, Or.inr rfl, by simpa using hpart, hspelled⟩

/-- A record without notes spells none. -/
theorem isControl_of_begins (h : Begins note atLineStart line) : isControl line = false := by
  rcases h with ⟨-, h⟩ | ⟨rest, rfl, -⟩
  · obtain ⟨c, text, rfl, hc, -⟩ := NotePattern.exists_cons_of_spelled h
    exact hc
  · rfl

theorem isControl_iff (hline : '\n' ∉ line) :
    isControl line = true ↔ IsControl (line ++ ['\n']) := by
  constructor
  · intro h
    cases line with
    | nil => cases h
    | cons c text => exact ⟨c, text, rfl, h, fun hmem => hline (List.mem_cons_of_mem c hmem)⟩
  · rintro ⟨c, text, heq, hc, -⟩
    rw [← List.cons_append] at heq
    rw [List.append_cancel_right heq]
    exact hc

theorem sequence_meaning_cons : Meaning.sequence ((note :: notes).map NotePattern.meaning) =
    note.record.followedBy (succession notes) := by
  rw [List.map_cons, Meaning.sequence_cons, NotePattern.meaning, Meaning.followedBy_assoc]
  rfl

/-- Notes still follow another note after a record without notes. -/
theorem succession_control (hline : IsControl line) (h : succession notes true word after) :
    succession notes atLineStart (line ++ word) after := by
  obtain ⟨_, right, rfl, ⟨controls, rfl, hcontrols⟩, hright⟩ := h
  refine ⟨(line :: controls).flatten, right, by simp, ⟨line :: controls, rfl, ?_⟩, ?_⟩
  · exact List.forall_mem_cons.mpr ⟨hline, hcontrols⟩
  · rwa [List.flatten_cons, lineStartAfter_append, hline.lineStartAfter_eq]

/-- The lines that some notes take are matched. -/
theorem succession_of_linesTaken? (h : linesTaken? notes lines = some count)
    (hlines : ∀ line ∈ lines, '\n' ∉ line) (after : List Char) :
    succession notes true (terminatedText (lines.take count)) after := by
  -- The recursion is on the lines: each of them is skipped or spells the next note.
  induction lines generalizing notes count with
  | nil =>
    cases notes with
    | nil => exact ⟨[], [], by simp, ⟨[], rfl, by simp⟩, rfl⟩
    | cons note notes => cases h
  | cons line lines ih =>
    obtain ⟨hline, hlines⟩ := List.forall_mem_cons.mp hlines
    cases notes with
    | nil =>
      obtain rfl : 0 = count := Option.some.inj h
      exact ⟨[], [], rfl, ⟨[], rfl, by simp⟩, rfl⟩
    | cons note notes =>
      rw [linesTaken?] at h
      split at h
      · next hcontrol =>
        obtain ⟨more, hmore, rfl⟩ := Option.map_eq_some_iff.mp h
        have hword : succession (note :: notes) true (line ++ ['\n'] ++ _) after :=
          succession_control ((isControl_iff hline).mp hcontrol) (ih hmore hlines)
        simpa using hword
      · split at h
        · next hspelled =>
          obtain ⟨more, hmore, rfl⟩ := Option.map_eq_some_iff.mp h
          have hrecord : ∀ after, note.record true (line ++ ['\n']) after := fun after =>
            record_iff.mpr ⟨line, rfl, hline, spelled_leadingToken.mp hspelled⟩
          refine ⟨[], terminatedText ((line :: lines).take (more + 1)), rfl, ⟨[], rfl, by simp⟩, ?_⟩
          rw [sequence_meaning_cons]
          refine ⟨line ++ ['\n'], terminatedText (lines.take more), by simp, hrecord _, ?_⟩
          simpa using ih hmore hlines
        · cases h

/-- What follows another note is over, or it goes on with a record without notes or with the first
note. -/
theorem succession_cases (h : succession notes true word after) :
    notes = [] ∧ word = [] ∨
      ∃ line rest, word = line ++ '\n' :: rest ∧ '\n' ∉ line ∧
        (isControl line = true ∧ succession notes true rest after ∨
          ∃ note others, notes = note :: others ∧ Begins note true line ∧
            succession others true rest after) := by
  obtain ⟨_, right, rfl, ⟨controls, rfl, hcontrols⟩, hright⟩ := h
  -- The first line is a record without notes as long as any are left to be skipped.
  rcases controls with _ | ⟨control, controls⟩
  · cases notes with
    | nil => exact Or.inl ⟨rfl, hright⟩
    | cons note notes =>
      rw [sequence_meaning_cons] at hright
      obtain ⟨_, rest, rfl, hrecord, hrest⟩ := hright
      obtain ⟨line, rfl, hline, hbegins⟩ := record_iff.mp hrecord
      refine Or.inr ⟨line, rest, by simp, hline, Or.inr ⟨note, notes, rfl, hbegins, ?_⟩⟩
      simpa using hrest
  · obtain ⟨⟨c, text, rfl, hc, htext⟩, hothers⟩ := List.forall_mem_cons.mp hcontrols
    have hline : '\n' ∉ c :: text := by
      rintro (_ | ⟨_, hmem⟩)
      · cases hc
      · exact htext hmem
    refine Or.inr ⟨c :: text, controls.flatten ++ right, by simp, hline, Or.inl ⟨hc, ?_⟩⟩
    exact ⟨controls.flatten, right, rfl, ⟨controls, rfl, hothers⟩, by simpa using hright⟩

/-- What is matched are the lines that some notes take, and records without notes after them. -/
theorem linesTaken?_of_succession (hlines : ∀ line ∈ lines, '\n' ∉ line) (htail : '\n' ∉ tail)
    (htext : word ++ after = terminatedText lines ++ tail)
    (h : succession notes true word after) :
    ∃ count extra, linesTaken? notes lines = some count ∧ count + extra ≤ lines.length ∧
      word = terminatedText (lines.take (count + extra)) ∧
      ∀ line ∈ (lines.drop count).take extra, isControl line = true := by
  -- A match ends each of its lines with a newline, so it never gets into the tail.
  induction lines generalizing notes word with
  | nil =>
    rcases succession_cases h with ⟨rfl, rfl⟩ | ⟨line, rest, rfl, hline, -⟩
    · exact ⟨0, 0, rfl, Nat.le_refl _, rfl, by simp⟩
    · rw [List.append_assoc, List.cons_append] at htext
      obtain ⟨more, hmore, -⟩ := exists_cons_of_eq_terminatedText hline hlines htail htext
      cases hmore
  | cons first lines ih =>
    rcases succession_cases h with ⟨rfl, rfl⟩ | ⟨line, rest, rfl, hline, hcases⟩
    · exact ⟨0, 0, rfl, Nat.zero_le _, rfl, by simp⟩
    rw [List.append_assoc, List.cons_append] at htext
    obtain ⟨more, hmore, hrest⟩ := exists_cons_of_eq_terminatedText hline hlines htail htext
    obtain ⟨rfl, rfl⟩ := List.cons.inj hmore
    obtain ⟨-, hlines⟩ := List.forall_mem_cons.mp hlines
    have hwhole : ∀ {count extra}, count + extra ≤ lines.length →
        count + 1 + extra ≤ (first :: lines).length := by
      intro count extra hle
      rw [List.length_cons]
      omega
    have htake : ∀ {count extra}, first ++ '\n' :: terminatedText (lines.take (count + extra)) =
        terminatedText ((first :: lines).take (count + 1 + extra)) := by
      intro count extra
      rw [Nat.add_right_comm, List.take_succ_cons, terminatedText_cons]
    rcases hcases with ⟨hcontrol, h⟩ | ⟨note, others, rfl, hbegins, h⟩
    · obtain ⟨count, extra, htaken, hle, rfl, hextra⟩ := ih hlines hrest h
      cases notes with
      | nil =>
        -- All notes have been matched, so the line comes after the ones that they take.
        obtain rfl : 0 = count := Option.some.inj (linesTaken?_nil.symm.trans htaken)
        rw [Nat.zero_add] at hle
        refine ⟨0, extra + 1, rfl, by simpa using hle, by simp, ?_⟩
        simpa [hcontrol] using hextra
      | cons note notes =>
        refine ⟨count + 1, extra, ?_, hwhole hle, htake, hextra⟩
        rw [linesTaken?, if_pos hcontrol, htaken]
        rfl
    · obtain ⟨count, extra, htaken, hle, rfl, hextra⟩ := ih hlines hrest h
      refine ⟨count + 1, extra, ?_, hwhole hle, htake, hextra⟩
      rw [linesTaken?, if_neg (by rw [isControl_of_begins hbegins]; decide),
        if_pos (spelled_leadingToken.mpr hbegins), htaken]
      rfl

end Meaning

end MotifSearch.Record
