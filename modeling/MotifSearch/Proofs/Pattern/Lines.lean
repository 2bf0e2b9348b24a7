import MotifSearch.Proofs.Pattern.Meaning
import MotifSearch.Proofs.Record.Succession

/-!
# The lines that a pattern takes

Whatever a pattern matches consists of lines that hold something, each with the newline after it.
The first one of them may be cut off at a tab, and the others are whole.

## Main definitions

* `Meaning.Compositional` — what holds of meanings holds of what is put together from them
* `Record.TakesLines` — a word consists of lines that hold something
* `Meaning.TakesLines` — all words of a meaning do

## Main results

* `holds_meaning` — what is compositional and holds of all notes holds of all patterns
* `takesLines_of_meaning` — a pattern takes lines
-/

namespace MotifSearch

open Text (byteLength)
open Record (terminatedText)

/-- What holds of several meanings holds of what is put together from them. -/
structure Meaning.Compositional (holds : Meaning → Prop) : Prop where
  nothing : holds .nothing
  never : holds .never
  followedBy {first second : Meaning} (hfirst : holds first) (hsecond : holds second) :
    holds (first.followedBy second)
  either {first second : Meaning} (hfirst : holds first) (hsecond : holds second) :
    holds (first.either second)
  iterated {body : Meaning} (hbody : holds body) : holds (Meaning.Iterated body)

theorem Meaning.Compositional.repeated {holds : Meaning → Prop} (h : Compositional holds)
    (quantifier : Quantifier) {body : Meaning} (hbody : holds body) :
    holds (quantifier.repeated body) := by
  cases quantifier with
  | exactlyOne => exact hbody
  | optional => exact h.either h.nothing hbody
  | oneOrMore => exact h.iterated hbody
  | zeroOrMore => exact h.either h.nothing (h.iterated hbody)

namespace Pattern

variable {holds : Meaning → Prop}

mutual

/-- What is compositional and holds of all notes holds of all patterns. -/
theorem holds_meaning (h : Meaning.Compositional holds)
    (hnote : ∀ note : NotePattern, holds note.meaning) : (pattern : Pattern) → holds pattern.meaning
  | note spec => by
    rw [meaning]
    exact hnote spec
  | sequence children => by
    rw [meaning]
    exact holds_sequenceMeaning h hnote children
  | alternation branches => by
    rw [meaning]
    exact holds_choiceMeaning h hnote branches
  | group children bounds => by
    rw [meaning]
    exact h.repeated bounds.usedQuantifier (holds_sequenceMeaning h hnote children)

theorem holds_sequenceMeaning (h : Meaning.Compositional holds)
    (hnote : ∀ note : NotePattern, holds note.meaning) :
    (children : List Pattern) → holds (sequenceMeaning children)
  | [] => by
    rw [sequenceMeaning]
    exact h.nothing
  | child :: children => by
    rw [sequenceMeaning]
    exact h.followedBy (holds_meaning h hnote child) (holds_sequenceMeaning h hnote children)

theorem holds_choiceMeaning (h : Meaning.Compositional holds)
    (hnote : ∀ note : NotePattern, holds note.meaning) :
    (branches : List (List Pattern)) → holds (choiceMeaning branches)
  | [] => by
    rw [choiceMeaning]
    exact h.never
  | branch :: branches => by
    rw [choiceMeaning]
    exact h.either (holds_sequenceMeaning h hnote branch) (holds_choiceMeaning h hnote branches)

end

end Pattern

/-- A word consists of lines that hold something, each with the newline after it. If there are any,
the first one begins where the word does, or the word begins with the tab before a column; and there
is at least a duration, a pitch and a newline. -/
structure Record.TakesLines (atLineStart : Bool) (word : List Char) : Prop where
  lines : ∃ lines, word = terminatedText lines ∧ ∀ line ∈ lines, line ≠ [] ∧ '\n' ∉ line
  start : word ≠ [] → atLineStart = true ∨ word.head? = some '\t'
  length : word ≠ [] → 3 ≤ byteLength word

namespace Record.TakesLines

variable {atLineStart : Bool} {first second : List Char}

theorem nil : TakesLines atLineStart [] :=
  ⟨⟨[], rfl, by simp⟩, fun hne => absurd rfl hne, fun hne => absurd rfl hne⟩

/-- Lines follow each other. -/
theorem append (hfirst : TakesLines atLineStart first)
    (hsecond : TakesLines (lineStartAfter atLineStart first) second) :
    TakesLines atLineStart (first ++ second) := by
  cases first with
  | nil => exact hsecond
  | cons c first =>
    obtain ⟨lines, hlines, hall⟩ := hfirst.lines
    obtain ⟨others, rfl, hothers⟩ := hsecond.lines
    refine ⟨⟨lines ++ others, ?_, ?_⟩, fun _ => ?_, fun _ => ?_⟩
    · rw [hlines, terminatedText_append]
    · exact List.forall_mem_append.mpr ⟨hall, hothers⟩
    · exact hfirst.start (List.cons_ne_nil c first)
    · have hlength := hfirst.length (List.cons_ne_nil c first)
      rw [Text.byteLength_append]
      exact Nat.le_add_right_of_le hlength

end Record.TakesLines

namespace Record

variable {note : NotePattern} {atLineStart : Bool} {word after part : List Char}

/-- Records without notes by their lines. -/
theorem skipped_iff : skipped atLineStart word after ↔
    ∃ controls, word = terminatedText controls ∧
      ∀ line ∈ controls, isControl line = true ∧ '\n' ∉ line := by
  constructor
  · rintro ⟨lines, rfl, hlines⟩
    induction lines with
    | nil => exact ⟨[], rfl, by simp⟩
    | cons line lines ih =>
      obtain ⟨hline, hothers⟩ := List.forall_mem_cons.mp hlines
      obtain ⟨c, text, rfl, hc, htext⟩ := hline
      obtain ⟨controls, heq, hcontrols⟩ := ih hothers
      have hne : c ≠ '\n' := by
        rintro rfl
        cases hc
      refine ⟨(c :: text) :: controls, ?_, List.forall_mem_cons.mpr ⟨⟨hc, ?_⟩, hcontrols⟩⟩
      · rw [List.flatten_cons, heq, terminatedText_cons]
        simp
      · exact List.not_mem_cons_of_ne_of_not_mem hne.symm htext
  · rintro ⟨controls, rfl, hcontrols⟩
    refine ⟨controls.map (· ++ ['\n']), ?_, fun line hline => ?_⟩
    · rw [terminatedText, List.flatMap_def]
    · obtain ⟨control, hcontrol, rfl⟩ := List.mem_map.mp hline
      obtain ⟨hstart, hnewline⟩ := hcontrols control hcontrol
      exact (isControl_iff hnewline).mp hstart

/-- A note by its lines: a record in which a match begins, and records without notes. -/
theorem note_iff : note.meaning atLineStart word after ↔
    ∃ part controls, word = terminatedText (part :: controls) ∧ '\n' ∉ part ∧
      Begins note atLineStart part ∧ ∀ line ∈ controls, isControl line = true ∧ '\n' ∉ line := by
  constructor
  · rintro ⟨_, _, rfl, hrecord, hskipped⟩
    obtain ⟨part, rfl, hpart, hbegins⟩ := record_iff.mp hrecord
    obtain ⟨controls, rfl, hcontrols⟩ := skipped_iff.mp hskipped
    exact ⟨part, controls, by simp, hpart, hbegins, hcontrols⟩
  · rintro ⟨part, controls, rfl, hpart, hbegins, hcontrols⟩
    refine ⟨part ++ ['\n'], terminatedText controls, by simp, ?_, ?_⟩
    · exact record_iff.mpr ⟨part, rfl, hpart, hbegins⟩
    · exact skipped_iff.mpr ⟨controls, rfl, hcontrols⟩

/-- What spells a note has a duration and a pitch. -/
theorem two_le_length_of_spelled (h : note.Spelled part) : 2 ≤ part.length := by
  obtain ⟨marks, _, rfl, -, duration, _, rfl, hduration, pitch, rest, rfl, hpitch, -⟩ := h
  obtain ⟨c, duration, rfl, -⟩ := NotePattern.exists_cons_of_durationSpelling hduration
  have hne := List.length_pos_iff.mpr (NotePattern.ne_nil_of_pitchSpelling hpitch)
  simp only [List.length_append, List.length_cons]
  omega

theorem two_le_length_of_begins (h : Begins note atLineStart part) : 2 ≤ part.length := by
  rcases h with ⟨-, h⟩ | ⟨rest, rfl, h⟩
  · exact two_le_length_of_spelled h
  · exact Nat.le_succ_of_le (two_le_length_of_spelled h)

/-- A note takes lines. -/
theorem TakesLines.of_note (h : note.meaning atLineStart word after) :
    TakesLines atLineStart word := by
  obtain ⟨part, controls, rfl, hpart, hbegins, hcontrols⟩ := note_iff.mp h
  have hlength := two_le_length_of_begins hbegins
  have hne : part ≠ [] := List.ne_nil_of_length_pos (Nat.lt_of_succ_lt hlength)
  refine ⟨⟨_, rfl, List.forall_mem_cons.mpr ⟨⟨hne, hpart⟩, fun line hline => ?_⟩⟩,
    fun _ => ?_, fun _ => ?_⟩
  · obtain ⟨hcontrol, hnewline⟩ := hcontrols line hline
    refine ⟨?_, hnewline⟩
    rintro rfl
    cases hcontrol
  · rcases hbegins with ⟨hstart, -⟩ | ⟨rest, rfl, -⟩
    · exact Or.inl hstart
    · exact Or.inr rfl
  · have hbytes := Text.length_le_byteLength part
    have hnewline := Char.utf8Size_pos '\n'
    rw [terminatedText_cons, Text.byteLength_append, Text.byteLength_cons]
    omega

end Record

/-- All words of a meaning take lines. -/
def Meaning.TakesLines (meaning : Meaning) : Prop :=
  ∀ atLineStart word after, meaning atLineStart word after → Record.TakesLines atLineStart word

theorem Meaning.TakesLines.compositional : Meaning.Compositional Meaning.TakesLines := by
  refine ⟨?_, ?_, ?_, ?_, ?_⟩
  · rintro atLineStart word after rfl
    exact .nil
  · intro atLineStart word after h
    exact h.elim
  · rintro first second hfirst hsecond atLineStart _ after ⟨left, right, rfl, hleft, hright⟩
    exact (hfirst _ _ _ hleft).append (hsecond _ _ _ hright)
  · rintro first second hfirst hsecond atLineStart word after (h | h)
    · exact hfirst _ _ _ h
    · exact hsecond _ _ _ h
  · intro body hbody atLineStart word after h
    induction h with
    | once h => exact hbody _ _ _ h
    | more hleft _ ih => exact (hbody _ _ _ hleft).append ih

namespace Pattern

variable {pattern : Pattern} {atLineStart : Bool} {word after : List Char}

/-- A pattern takes lines. -/
theorem takesLines_of_meaning (h : pattern.meaning atLineStart word after) :
    Record.TakesLines atLineStart word :=
  holds_meaning Meaning.TakesLines.compositional
    (fun _ _ _ _ => Record.TakesLines.of_note) pattern _ _ _ h

/-- A preferred match takes lines. -/
theorem takesLines_of_preferredLength
    (h : pattern.syntaxTree.factored.preferredLength atLineStart (word ++ after) =
      some word.length) : Record.TakesLines atLineStart word := by
  obtain ⟨-, hmeaning⟩ := Regex.meaning_of_preferredLength h
  rw [List.take_left, List.drop_left, Regex.meaning_factored, meaning_syntaxTree] at hmeaning
  exact takesLines_of_meaning hmeaning

end Pattern

end MotifSearch
