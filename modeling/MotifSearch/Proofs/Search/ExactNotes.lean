import MotifSearch.Proofs.Pattern.Lines
import MotifSearch.Proofs.Pattern.NoteText
import MotifSearch.Proofs.Record.Notes

/-!
# Notes of which nothing is left open

A token that spells a note whose duration, pitch and accidental are given spells no other such note:
the duration ends with the first character that is neither a digit nor a dot, the letters end with
the first character that is no pitch letter, and what follows the accidental must not go on with it.
So where two of these notes are matched at the same place, they are written in the same way.

## Main definitions

* `ExactNote` — a note of which nothing is left open
* `ExactNote.Alike` — two of them are written in the same way
* `Pattern.MatchesAt` — a match of a pattern begins at a byte offset

## Main results

* `kernLetters_injective` — the letters tell the pitch letter and the octave
* `ExactNote.alike_of_spelled` — a token spells only one note
* `exactNotes_discriminate` — so does a place at which notes are matched
-/

namespace MotifSearch

open Text (byteLength)

/-! ### Kern letters -/

namespace PitchLetter

variable {letter other : PitchLetter}

theorem eq_of_char_eq (h : letter.char = other.char) : letter = other := by
  simpa using congrArg (fun c => ofText? [c]) h

theorem toLower_toUpper_char (letter : PitchLetter) :
    letter.char.toUpper.toLower = letter.char := by
  cases letter <;> rfl

theorem eq_of_toUpper_eq (h : letter.char.toUpper = other.char.toUpper) : letter = other := by
  apply eq_of_char_eq
  rw [← letter.toLower_toUpper_char, h, other.toLower_toUpper_char]

theorem char_ne_toUpper (letter other : PitchLetter) : letter.char ≠ other.char.toUpper := by
  intro h
  have hlower : letter.char.isLower = true := by cases letter <;> rfl
  have hupper : other.char.toUpper.isLower = false := by cases other <;> rfl
  rw [h, hupper] at hlower
  cases hlower

end PitchLetter

/-- The letters tell the pitch letter and the octave. -/
theorem kernLetters_injective {letter other : PitchLetter} {octave otherOctave : Octave}
    (h : kernLetters letter octave = kernLetters other otherOctave) :
    letter = other ∧ octave = otherOctave := by
  obtain ⟨number, low, high⟩ := octave
  obtain ⟨otherNumber, otherLow, otherHigh⟩ := otherOctave
  simp only [kernLetters] at h
  split at h <;> split at h
  · obtain ⟨hcount, hchar⟩ := List.replicate_inj.mp h
    obtain rfl : number = otherNumber := by omega
    exact ⟨PitchLetter.eq_of_char_eq (hchar.resolve_left (by omega)), rfl⟩
  · obtain ⟨hcount, hchar⟩ := List.replicate_inj.mp h
    exact absurd (hchar.resolve_left (by omega)) (PitchLetter.char_ne_toUpper letter other)
  · obtain ⟨hcount, hchar⟩ := List.replicate_inj.mp h
    exact absurd (hchar.resolve_left (by omega)).symm (PitchLetter.char_ne_toUpper other letter)
  · obtain ⟨hcount, hchar⟩ := List.replicate_inj.mp h
    obtain rfl : number = otherNumber := by omega
    exact ⟨PitchLetter.eq_of_toUpper_eq (hchar.resolve_left (by omega)), rfl⟩

/-! ### Exact notes -/

/-- A note of which nothing is left open. -/
structure ExactNote where
  duration : DottedDuration
  letter : PitchLetter
  octave : Octave
  accidental : Accidental

namespace ExactNote

/-- What a pattern asks of the note. -/
def spec (note : ExactNote) : NotePattern :=
  ⟨.exact ⟨note.letter, note.octave, .exact note.accidental⟩, .exact note.duration⟩

/-- How a kern record writes the duration, with its dots. -/
def durationText (note : ExactNote) : List Char :=
  note.duration.code.kern ++ List.replicate note.duration.dots.toNat '.'

/-- How a kern record writes the letter in its octave. -/
def letters (note : ExactNote) : List Char :=
  kernLetters note.letter note.octave

/-- How a kern record writes the accidental. It does not write naturals and quarter-tones. -/
def signs (note : ExactNote) : List Char :=
  note.accidental.kern?.getD []

/-- Two notes are written in the same way. -/
structure Alike (note other : ExactNote) : Prop where
  duration : note.durationText = other.durationText
  letter : note.letter = other.letter
  octave : note.octave = other.octave
  signs : note.signs = other.signs

variable {note other : ExactNote} {line : List Char}

theorem spelled_iff : note.spec.Spelled line ↔ ∃ marks rest,
    line = marks ++ (note.durationText ++ (note.letters ++ (note.signs ++ rest))) ∧
      Spelling.run Record.marks.contains marks ∧ Record.pitchEnd rest := by
  constructor
  · rintro ⟨marks, _, rfl, hmarks, _, _, rfl, rfl, _, rest, rfl, ⟨_, _, rfl, rfl, rfl⟩, hrest⟩
    exact ⟨marks, rest, by simp [durationText, letters, signs], hmarks, hrest⟩
  · rintro ⟨marks, rest, rfl, hmarks, hrest⟩
    exact ⟨marks, _, rfl, hmarks, note.durationText, _, rfl, rfl, note.letters ++ note.signs, rest,
      by simp, ⟨note.letters, note.signs, rfl, rfl, rfl⟩, hrest⟩

theorem durationText_ne_nil (note : ExactNote) : note.durationText ≠ [] :=
  List.append_ne_nil_of_left_ne_nil note.duration.code.kern_ne_nil _

/-- The characters of a duration with dots. -/
def isDurationChar (c : Char) : Bool :=
  c.isDigit || c == '.'

/-- The characters of written accidentals. -/
def isSign (c : Char) : Bool :=
  c == '#' || c == '-'

theorem isDurationChar_of_mem {c : Char} (h : c ∈ note.durationText) : isDurationChar c = true := by
  rcases List.mem_append.mp h with h | h
  · rw [isDurationChar, DurationCode.isDigit_of_mem_kern h, Bool.true_or]
  · rw [List.eq_of_mem_replicate h]
    rfl

theorem contains_letters_of_mem {c : Char} (h : c ∈ note.letters) :
    Record.letters.contains c = true :=
  List.contains_iff_mem.mpr (Record.mem_letters_of_mem_kernLetters h)

theorem isSign_of_mem {c : Char} (h : c ∈ note.signs) : isSign c = true := by
  have hall : note.signs.all isSign = true := by
    rw [signs]
    cases note.accidental <;> rfl
  exact List.all_eq_true.mp hall c h

section Chars

variable {c : Char}

theorem contains_marks_of_isDurationChar (h : isDurationChar c = true) :
    Record.marks.contains c = false := by
  rw [← Bool.not_eq_true, Record.contains_marks]
  rintro (rfl | rfl | rfl | rfl | rfl) <;> cases h

theorem isDurationChar_of_mem_letters (h : c ∈ Record.letters) : isDurationChar c = false := by
  rw [← Bool.not_eq_true, isDurationChar, Bool.or_eq_true, beq_iff_eq]
  exact Record.not_duration_of_mem_letters h

theorem contains_letters_of_isSign (h : isSign c = true) : Record.letters.contains c = false := by
  rw [isSign, Bool.or_eq_true, beq_iff_eq, beq_iff_eq] at h
  rcases h with rfl | rfl <;> decide

theorem contains_letters_of_pitchEnds (h : Record.pitchEnds.contains c = true) :
    Record.letters.contains c = false := by
  rw [← Bool.not_eq_true, List.contains_iff_mem]
  intro hmem
  rw [Record.pitchEnds_of_mem_letters hmem] at h
  cases h

theorem isSign_of_pitchEnds (h : Record.pitchEnds.contains c = true) : isSign c = false := by
  rw [← Bool.not_eq_true, isSign, Bool.or_eq_true, beq_iff_eq, beq_iff_eq]
  rintro (rfl | rfl) <;> cases h

end Chars

end ExactNote

/-- What a text begins with that begins with a word. -/
private theorem forall_head?_append {word rest : List Char} {holds : Char → Prop} (hne : word ≠ [])
    (h : ∀ c ∈ word, holds c) : ∀ c ∈ (word ++ rest).head?, holds c := by
  obtain ⟨d, word, rfl⟩ := List.exists_cons_of_ne_nil hne
  intro c hc
  obtain rfl := Option.some.inj hc
  exact h d List.mem_cons_self

namespace ExactNote

open Text (eq_and_eq_of_append_eq)

variable {note other : ExactNote} {line : List Char}

/-- A digit is no mark. -/
theorem marks_of_head_durationText (note : ExactNote) (rest : List Char) :
    ∀ c ∈ (note.durationText ++ rest).head?, Record.marks.contains c = false :=
  forall_head?_append note.durationText_ne_nil fun _ hc =>
    contains_marks_of_isDurationChar (isDurationChar_of_mem hc)

/-- A pitch letter is neither a digit nor a dot. -/
theorem isDurationChar_of_head_letters (note : ExactNote) (rest : List Char) :
    ∀ c ∈ (note.letters ++ rest).head?, isDurationChar c = false :=
  forall_head?_append (kernLetters_ne_nil _ _) fun _ hc =>
    isDurationChar_of_mem_letters (Record.mem_letters_of_mem_kernLetters hc)

/-- Neither a sign nor what ends a pitch is a pitch letter. -/
theorem letters_of_head_signs (note : ExactNote) {rest : List Char} (hrest : Record.pitchEnd rest) :
    ∀ c ∈ (note.signs ++ rest).head?, Record.letters.contains c = false := by
  by_cases hnil : note.signs = []
  · rw [hnil, List.nil_append]
    exact fun c hc => contains_letters_of_pitchEnds (hrest c hc)
  · exact forall_head?_append hnil fun c hc => contains_letters_of_isSign (isSign_of_mem hc)

/-- A token spells only one note. -/
theorem alike_of_spelled (h : note.spec.Spelled line) (hother : other.spec.Spelled line) :
    note.Alike other := by
  obtain ⟨marks, rest, hline, hmarks, hrest⟩ := spelled_iff.mp h
  obtain ⟨otherMarks, otherRest, hotherLine, hotherMarks, hotherRest⟩ := spelled_iff.mp hother
  -- One part after the other: each ends with the first character that cannot belong to it.
  obtain ⟨-, hduration⟩ := eq_and_eq_of_append_eq hmarks hotherMarks
    (note.marks_of_head_durationText _) (other.marks_of_head_durationText _)
    (hline.symm.trans hotherLine)
  obtain ⟨hduration, hletters⟩ := eq_and_eq_of_append_eq (fun _ => isDurationChar_of_mem)
    (fun _ => isDurationChar_of_mem) (note.isDurationChar_of_head_letters _)
    (other.isDurationChar_of_head_letters _) hduration
  obtain ⟨hletters, hsigns⟩ := eq_and_eq_of_append_eq (fun _ => contains_letters_of_mem)
    (fun _ => contains_letters_of_mem) (note.letters_of_head_signs hrest)
    (other.letters_of_head_signs hotherRest) hletters
  obtain ⟨hsigns, -⟩ := eq_and_eq_of_append_eq (fun _ => isSign_of_mem) (fun _ => isSign_of_mem)
    (fun c hc => isSign_of_pitchEnds (hrest c hc))
    (fun c hc => isSign_of_pitchEnds (hotherRest c hc)) hsigns
  obtain ⟨hletter, hoctave⟩ := kernLetters_injective hletters
  exact ⟨hduration, hletter, hoctave, hsigns⟩

/-- What is left of a line begins a match of only one note. -/
theorem alike_of_begins {atLineStart : Bool} (h : Record.Begins note.spec atLineStart line)
    (hother : Record.Begins other.spec atLineStart line) : note.Alike other := by
  rcases h with ⟨-, h⟩ | ⟨rest, rfl, h⟩
  · rcases hother with ⟨-, hother⟩ | ⟨rest, rfl, hother⟩
    · exact alike_of_spelled h hother
    · exact absurd h Record.not_spelled_tab
  · rcases hother with ⟨-, hother⟩ | ⟨others, heq, hother⟩
    · exact absurd hother Record.not_spelled_tab
    · obtain rfl := (List.cons.inj heq).2
      exact alike_of_spelled h hother

end ExactNote

/-! ### Matches at one place -/

/-- A text is divided in only one way by the length in bytes of what comes before. -/
theorem Text.eq_and_eq_of_byteLength_eq {before others rest after : List Char}
    (h : before ++ rest = others ++ after) (hlength : byteLength before = byteLength others) :
    before = others ∧ rest = after := by
  have hdrop := dropBytes_append before rest
  rw [h, hlength, dropBytes_append] at hdrop
  obtain rfl := Option.some.inj hdrop
  exact ⟨List.append_cancel_right h, rfl⟩

namespace Pattern

variable {pattern other : Pattern} {score : List Char} {start : Nat}

/-- A match of the pattern begins at a byte of the score, whether or not a search reports it. -/
def MatchesAt (pattern : Pattern) (score : List Char) (start : Nat) : Prop :=
  ∃ regex stop, readExpression pattern.compile.expression = .ok regex ∧
    regex.meaning.Matches score ⟨start, stop⟩

/-- A match begins where a span does that a search reports. -/
theorem matchesAt_of_locate {spans : List Span}
    (h : locate score pattern.compile.expression = .ok spans)
    (hstart : start ∈ spans.map Span.start) : pattern.MatchesAt score start := by
  obtain ⟨⟨_, stop⟩, hspan, rfl⟩ := List.mem_map.mp hstart
  obtain ⟨regex, hread, rfl⟩ := locate_eq_ok_iff.mp h
  exact ⟨regex, stop, by rw [readExpression, hread, mapError_ok], Regex.matches_of_mem_findAll hspan⟩

/-- A match of a single note begins within a line of the score, from its start or at a tab. -/
theorem begins_of_matchesAt {spec : NotePattern} (hpattern : pattern.strands = [[note spec]])
    (h : pattern.MatchesAt score start) :
    ∃ before part rest, score = before ++ (part ++ '\n' :: rest) ∧ start = byteLength before ∧
      '\n' ∉ part ∧ Record.Begins spec (lineStartAfter true before) part := by
  obtain ⟨regex, stop, hread, before, word, after, rfl, hspan, hmeaning⟩ := h
  obtain rfl := eq_syntaxTree_of_read hread
  obtain rfl := congrArg Span.start hspan
  rw [meaning_syntaxTree, withoutBeams, hpattern, meaning, choiceMeaning_singleton,
    sequenceMeaning_singleton, meaning] at hmeaning
  obtain ⟨part, controls, rfl, hpart, hbegins, -⟩ := Record.note_iff.mp hmeaning
  exact ⟨before, part, Record.terminatedText controls ++ after, by simp, rfl, hpart, hbegins⟩

end Pattern

/-- Exact notes discriminate: where two patterns of one note each, alone or in beams, match at the
same byte, the notes are written in the same way. In particular, this holds of the matches that
searches report. -/
theorem exactNotes_discriminate {pattern other : Pattern} {first second : ExactNote}
    (hpattern : pattern.strands = [[.note first.spec]])
    (hother : other.strands = [[.note second.spec]]) (score : List Char) (start : Nat) :
    (pattern.MatchesAt score start → other.MatchesAt score start → first.Alike second) ∧
      ∀ spans others, locate score pattern.compile.expression = .ok spans →
        locate score other.compile.expression = .ok others →
        start ∈ spans.map Span.start → start ∈ others.map Span.start → first.Alike second := by
  have halike (h : pattern.MatchesAt score start) (hsame : other.MatchesAt score start) :
      first.Alike second := by
    obtain ⟨before, part, rest, hscore, rfl, hpart, hbegins⟩ :=
      Pattern.begins_of_matchesAt hpattern h
    obtain ⟨otherBefore, otherPart, others, hsame, hstart, hotherPart, hotherBegins⟩ :=
      Pattern.begins_of_matchesAt hother hsame
    obtain ⟨rfl, hline⟩ := Text.eq_and_eq_of_byteLength_eq (hscore.symm.trans hsame) hstart
    obtain ⟨rfl, -⟩ := Record.append_newline_inj hpart hotherPart hline
    exact ExactNote.alike_of_begins hbegins hotherBegins
  refine ⟨halike, fun spans others hspans hothers hstart hsame => ?_⟩
  exact halike (Pattern.matchesAt_of_locate hspans hstart)
    (Pattern.matchesAt_of_locate hothers hsame)

/-- A quarter note on middle c, with an accidental. -/
def ExactNote.middleC (accidental : Accidental) : ExactNote :=
  ⟨⟨.denominator 4, 0⟩, .c, .clamp 4, accidental⟩

/-- A natural and a quarter sharp are found in the same record, which writes neither. -/
theorem exactNotes_discriminate_unwritten :
    locate "(4c\n".toList
        (Pattern.note (ExactNote.middleC .natural).spec).compile.expression = .ok [⟨0, 4⟩] ∧
      locate "(4c\n".toList (Pattern.sequence
        [.note (ExactNote.middleC .quarterSharp).spec]).compile.expression = .ok [⟨0, 4⟩] ∧
      (ExactNote.middleC .natural).Alike (ExactNote.middleC .quarterSharp) := by
  have hnatural : (Pattern.note (ExactNote.middleC .natural).spec).strands =
      [[.note (ExactNote.middleC .natural).spec]] := rfl
  have hquarter : (Pattern.sequence [.note (ExactNote.middleC .quarterSharp).spec]).strands =
      [[.note (ExactNote.middleC .quarterSharp).spec]] := rfl
  obtain ⟨-, hlocated⟩ := exactNotes_discriminate hnatural hquarter "(4c\n".toList 0
  exact ⟨rfl, rfl, hlocated [⟨0, 4⟩] [⟨0, 4⟩] rfl rfl (by decide) (by decide)⟩

end MotifSearch
