import MotifSearch.Proofs.Record.Mode

/-!
# How records spell notes

A record is a line, and its tokens are separated by tabs. A token spells a note by marks, a duration
and a pitch, and what follows in the token must not go on with the pitch. Whether it does can be
decided.

## Main definitions

* `Spelling` — words of some kind, with `Spelling.exactly`, `Spelling.run`, `Spelling.someRun` and
  `Spelling.andThen`
* `NotePattern.Spelled` — a token spells a note

## Main results

* `spelled_takeWhile` — whether a note is spelled is decided within its token
-/

namespace MotifSearch

/-- Words of some kind, wherever they stand. -/
def Spelling := List Char → Prop

namespace Spelling

/-- One word only. -/
def exactly (text : List Char) : Spelling := fun word => word = text

/-- Any number of characters of one kind. -/
def run (kind : Char → Bool) : Spelling := fun word => ∀ c ∈ word, kind c = true

/-- At least one character of one kind, and no others. -/
def someRun (kind : Char → Bool) : Spelling := fun word => word ≠ [] ∧ run kind word

/-- A word of one kind and then a word of another one. -/
def andThen (first second : Spelling) : Spelling := fun word =>
  ∃ left right, word = left ++ right ∧ first left ∧ second right

instance (text : List Char) : DecidablePred (exactly text) :=
  fun word => inferInstanceAs (Decidable (word = text))

instance (kind : Char → Bool) : DecidablePred (run kind) :=
  List.decidableBAll (kind · = true)

instance (kind : Char → Bool) : DecidablePred (someRun kind) :=
  fun word => inferInstanceAs (Decidable (word ≠ [] ∧ run kind word))

@[simp] theorem run_nil (kind : Char → Bool) : run kind [] := by
  simp [run]

@[simp] theorem run_cons {kind : Char → Bool} {c : Char} {word : List Char} :
    run kind (c :: word) ↔ kind c = true ∧ run kind word :=
  List.forall_mem_cons

/-- There are only so many places where a word can be divided. -/
theorem andThen_iff {first second : Spelling} {word : List Char} :
    first.andThen second word ↔
      ∃ count ∈ List.range (word.length + 1),
        first (word.take count) ∧ second (word.drop count) := by
  constructor
  · rintro ⟨left, right, rfl, hleft, hright⟩
    refine ⟨left.length, ?_, ?_, ?_⟩
    · rw [List.mem_range, List.length_append]
      omega
    · rwa [List.take_left]
    · rwa [List.drop_left]
  · rintro ⟨count, -, hleft, hright⟩
    exact ⟨_, _, (List.take_append_drop count word).symm, hleft, hright⟩

instance (first second : Spelling) [DecidablePred first] [DecidablePred second] :
    DecidablePred (first.andThen second) :=
  fun _ => decidable_of_iff' _ andThen_iff

end Spelling

open Spelling

namespace Record

/-- A duration with any number of dots. -/
def anyDuration : Spelling := (someRun Char.isDigit).andThen (run (· == '.'))

instance : DecidablePred anyDuration :=
  inferInstanceAs (DecidablePred ((someRun Char.isDigit).andThen (run (· == '.'))))

/-- Any accidental or none. -/
def anyAccidental : Spelling := fun word =>
  run (· == '#') word ∨ run (· == '-') word ∨ word = ['n']

instance : DecidablePred anyAccidental := fun word =>
  inferInstanceAs (Decidable (run (· == '#') word ∨ run (· == '-') word ∨ word = ['n']))

/-- A pitch letter in any octave. -/
def anyLetters : Spelling := fun word => ∃ letter ∈ letters, someRun (· == letter) word

instance : DecidablePred anyLetters := fun word =>
  List.decidableBEx (fun letter => someRun (· == letter) word) letters

/-- The rest of a token, which must not go on with the pitch. -/
def pitchEnd : Spelling := fun rest => ∀ c ∈ rest.head?, pitchEnds.contains c = true

instance : DecidablePred pitchEnd := fun rest =>
  Option.decidableForallMem rest.head?

end Record

/-- How an accidental is spelled. One that cannot be written in kern is left out. -/
def accidentalSpelling : Constraint Accidental → Spelling
  | .any => Record.anyAccidental
  | .exact accidental => exactly (accidental.kern?.getD [])

instance : (constraint : Constraint Accidental) → DecidablePred (accidentalSpelling constraint)
  | .any => inferInstanceAs (DecidablePred Record.anyAccidental)
  | .exact accidental => inferInstanceAs (DecidablePred (exactly (accidental.kern?.getD [])))

/-- How a given duration is spelled. -/
def DottedDuration.spelling (duration : DottedDuration) : Spelling :=
  exactly (duration.code.kern ++ List.replicate duration.dots.toNat '.')

instance (duration : DottedDuration) : DecidablePred duration.spelling :=
  inferInstanceAs (DecidablePred (exactly _))

/-- How a given pitch is spelled. -/
def PitchPattern.spelling (pitch : PitchPattern) : Spelling :=
  (exactly (kernLetters pitch.letter pitch.octave)).andThen (accidentalSpelling pitch.accidental)

instance (pitch : PitchPattern) : DecidablePred pitch.spelling :=
  inferInstanceAs (DecidablePred ((exactly _).andThen (accidentalSpelling _)))

namespace NotePattern

/-- How the duration of a note is spelled. -/
def durationSpelling (note : NotePattern) : Spelling :=
  match note.duration with
  | .any => Record.anyDuration
  | .exact duration => duration.spelling

instance : (note : NotePattern) → DecidablePred note.durationSpelling
  | ⟨_, .any⟩ => inferInstanceAs (DecidablePred Record.anyDuration)
  | ⟨_, .exact duration⟩ => inferInstanceAs (DecidablePred duration.spelling)

/-- How the pitch of a note is spelled. -/
def pitchSpelling (note : NotePattern) : Spelling :=
  match note.pitch with
  | .any => Record.anyLetters.andThen Record.anyAccidental
  | .exact pitch => pitch.spelling

instance : (note : NotePattern) → DecidablePred note.pitchSpelling
  | ⟨.any, _⟩ => inferInstanceAs (DecidablePred (Record.anyLetters.andThen Record.anyAccidental))
  | ⟨.exact pitch, _⟩ => inferInstanceAs (DecidablePred pitch.spelling)

/-- A token spells a note: marks, the duration, the pitch, and whatever does not go on with it. -/
def Spelled (note : NotePattern) : Spelling :=
  (run Record.marks.contains).andThen
    (note.durationSpelling.andThen (note.pitchSpelling.andThen Record.pitchEnd))

instance (note : NotePattern) : DecidablePred note.Spelled :=
  inferInstanceAs (DecidablePred ((run _).andThen
    (note.durationSpelling.andThen (note.pitchSpelling.andThen Record.pitchEnd))))

end NotePattern

/-- A word that lies within one token of a record, and within a token that spells a note at that. -/
structure Record.WithinToken (word : List Char) : Prop where
  newline : '\n' ∉ word
  tab : '\t' ∉ word
  star : '*' ∉ word

namespace Record.WithinToken

variable {word first second : List Char}

theorem nil : WithinToken [] := ⟨List.not_mem_nil, List.not_mem_nil, List.not_mem_nil⟩

theorem append (hfirst : WithinToken first) (hsecond : WithinToken second) :
    WithinToken (first ++ second) :=
  ⟨by simp [hfirst.newline, hsecond.newline], by simp [hfirst.tab, hsecond.tab],
    by simp [hfirst.star, hsecond.star]⟩

theorem run {kind : Char → Bool} (h : Spelling.run kind word) (hnewline : kind '\n' = false)
    (htab : kind '\t' = false) (hstar : kind '*' = false) : WithinToken word := by
  have hnot : ∀ c, kind c = false → c ∉ word := by
    intro c hc hmem
    rw [h c hmem] at hc
    cases hc
  exact ⟨hnot _ hnewline, hnot _ htab, hnot _ hstar⟩

theorem kernLetters (letter : PitchLetter) (octave : Octave) :
    WithinToken (kernLetters letter octave) := by
  have halpha : Spelling.run Char.isAlpha (MotifSearch.kernLetters letter octave) :=
    fun _ hc => isAlpha_of_mem_kernLetters hc
  exact run halpha rfl rfl rfl

theorem duration {note : NotePattern} (h : note.durationSpelling word) : WithinToken word := by
  obtain ⟨pitch, _ | duration⟩ := note
  · obtain ⟨digits, dots, rfl, hdigits, hdots⟩ := h
    exact (run hdigits.2 rfl rfl rfl).append (run hdots rfl rfl rfl)
  · obtain rfl : word = _ := h
    have hcode : Spelling.run Char.isDigit duration.code.kern :=
      fun _ hc => DurationCode.isDigit_of_mem_kern hc
    have hdots : Spelling.run (· == '.') (List.replicate duration.dots.toNat '.') := by
      intro c hc
      rw [List.eq_of_mem_replicate hc]
      rfl
    exact (run hcode rfl rfl rfl).append (run hdots rfl rfl rfl)

theorem accidental {constraint : Constraint Accidental} (h : accidentalSpelling constraint word) :
    WithinToken word := by
  cases constraint with
  | any =>
    rcases h with h | h | rfl
    · exact run h rfl rfl rfl
    · exact run h rfl rfl rfl
    · exact ⟨by decide, by decide, by decide⟩
  | exact accidental =>
    obtain rfl : word = _ := h
    cases accidental <;> exact ⟨by decide, by decide, by decide⟩

theorem pitch {note : NotePattern} (h : note.pitchSpelling word) : WithinToken word := by
  obtain ⟨_ | pitch, duration⟩ := note
  · obtain ⟨run, signs, rfl, ⟨letter, hletter, hrun⟩, hsigns⟩ := h
    have hother : ∀ c ∉ letters, (c == letter) = false := by
      intro c hc
      rw [beq_eq_false_iff_ne]
      rintro rfl
      exact hc hletter
    have hsigns : accidentalSpelling .any signs := hsigns
    exact (WithinToken.run hrun.2 (hother _ (by decide)) (hother _ (by decide))
      (hother _ (by decide))).append (accidental hsigns)
  · obtain ⟨run, signs, rfl, rfl, hsigns⟩ := h
    exact (kernLetters _ _).append (accidental hsigns)

end Record.WithinToken

namespace NotePattern

/-- What spells a note lies within one token. -/
theorem exists_of_spelled {note : NotePattern} {line : List Char} (h : note.Spelled line) :
    ∃ spelling rest, line = spelling ++ rest ∧ Record.WithinToken spelling ∧
      Record.pitchEnd rest ∧ ∀ other, Record.pitchEnd other → note.Spelled (spelling ++ other) := by
  obtain ⟨marks, _, rfl, hmarks, duration, _, rfl, hduration, pitch, rest, rfl, hpitch, hrest⟩ := h
  have hwithin := (Record.WithinToken.run hmarks rfl rfl rfl).append
    ((Record.WithinToken.duration hduration).append (Record.WithinToken.pitch hpitch))
  refine ⟨marks ++ (duration ++ pitch), rest, by simp, hwithin, hrest, ?_⟩
  intro other hother
  exact ⟨marks, duration ++ (pitch ++ other), by simp, hmarks, duration, pitch ++ other, rfl,
    hduration, pitch, other, rfl, hpitch, hother⟩

/-- A token that spells a note still does so when it goes on with a tab, or when it goes on at all
after a star. -/
theorem spelled_append {note : NotePattern} {token rest : List Char} (h : note.Spelled token)
    (hrest : ∀ c ∈ rest.head?, c = '\t' ∨ '*' ∈ token) : note.Spelled (token ++ rest) := by
  obtain ⟨spelling, behind, rfl, hwithin, hbehind, hother⟩ := exists_of_spelled h
  rw [List.append_assoc]
  apply hother
  intro c hc
  cases behind with
  | cons d behind => exact hbehind c hc
  | nil =>
    rcases hrest c hc with rfl | hstar
    · rfl
    · rw [List.append_nil] at hstar
      exact absurd hstar hwithin.star

/-- Whether a note is spelled is decided within the first token. -/
theorem spelled_takeWhile {note : NotePattern} {line : List Char} :
    note.Spelled (line.takeWhile (· ≠ '\t')) ↔ note.Spelled line := by
  constructor
  · -- What follows the token begins with the tab that ends it.
    intro h
    rw [← List.takeWhile_append_dropWhile (p := (· ≠ '\t')) (l := line)]
    refine spelled_append h fun c hc => Or.inl ?_
    have htab := List.head?_dropWhile_not (· ≠ '\t') line
    rw [show (line.dropWhile (· ≠ '\t')).head? = some c from hc] at htab
    simpa using htab
  · -- The spelling has no tab, so that all of it is kept.
    intro h
    obtain ⟨spelling, rest, rfl, hwithin, hrest, hother⟩ := exists_of_spelled h
    rw [List.takeWhile_append_of_pos]
    · apply hother
      intro c hc
      rw [List.head?_takeWhile, Option.mem_filter_iff] at hc
      exact hrest c hc.1
    · intro c hc
      exact decide_eq_true fun heq => hwithin.tab (heq ▸ hc)

theorem exists_cons_of_durationSpelling {note : NotePattern} {word : List Char}
    (h : note.durationSpelling word) : ∃ c text, word = c :: text ∧ c.isDigit = true := by
  obtain ⟨pitch, _ | duration⟩ := note
  · obtain ⟨digits, dots, rfl, ⟨hne, hdigits⟩, -⟩ := h
    obtain ⟨c, digits, rfl⟩ := List.exists_cons_of_ne_nil hne
    exact ⟨c, digits ++ dots, rfl, (run_cons.mp hdigits).1⟩
  · obtain rfl : word = _ := h
    obtain ⟨c, text, heq⟩ := List.exists_cons_of_ne_nil duration.code.kern_ne_nil
    refine ⟨c, text ++ _, congrArg (· ++ _) heq, ?_⟩
    exact DurationCode.isDigit_of_mem_kern (heq ▸ List.mem_cons_self)

theorem ne_nil_of_pitchSpelling {note : NotePattern} {word : List Char}
    (h : note.pitchSpelling word) : word ≠ [] := by
  obtain ⟨_ | pitch, duration⟩ := note
  · obtain ⟨run, signs, rfl, ⟨letter, -, hrun⟩, -⟩ := h
    exact List.append_ne_nil_of_left_ne_nil hrun.1 signs
  · obtain ⟨run, signs, rfl, rfl, -⟩ := h
    exact List.append_ne_nil_of_left_ne_nil (kernLetters_ne_nil _ _) signs

/-- What spells a note begins neither like a record without notes nor with a tab. -/
theorem exists_cons_of_spelled {note : NotePattern} {line : List Char} (h : note.Spelled line) :
    ∃ c text, line = c :: text ∧ Record.controls.contains c = false ∧ c ≠ '\t' := by
  obtain ⟨marks, _, rfl, hmarks, duration, _, rfl, hduration, -⟩ := h
  -- The first character is a mark or, where there are no marks, the first digit of the duration.
  cases marks with
  | cons c marks =>
    obtain ⟨hc, -⟩ := run_cons.mp hmarks
    refine ⟨c, _, rfl, ?_, ?_⟩
    · rw [← Bool.not_eq_true]
      intro hcontrol
      rcases Record.contains_controls.mp hcontrol with rfl | rfl | rfl | rfl <;> cases hc
    · rintro rfl
      cases hc
  | nil =>
    obtain ⟨c, text, rfl, hc⟩ := exists_cons_of_durationSpelling hduration
    refine ⟨c, _, rfl, CharSet.controls_of_isDigit hc, ?_⟩
    rintro rfl
    cases hc

end NotePattern

end MotifSearch
