import MotifSearch.Pattern.Compile

/-!
# What the canonical text tells of a note

The canonical text of a note tells the note, but for one thing that it shows as another: the
denominator zero looks like a breve. An octave and an accidental follow each other without a mark
between them, but the digits of both tell where the octave ends, because no accidental but a quarter
sharp begins with a digit.

## Main definitions

* `NotePattern.shown` — the note that the canonical text shows

## Main results

* `NotePattern.shown_eq_of_canonical_append` — the text of a note with something after it tells the
  note, and the rest
* `expression_shown`, `fallbacks_shown` — the note that is shown compiles to the same
-/

namespace MotifSearch

namespace Text

/-- Two ways to divide a text at the first character that fails a test are the same. -/
theorem eq_and_eq_of_append_eq {holds : Char → Bool} {first other rest others : List Char}
    (hfirst : ∀ c ∈ first, holds c = true) (hother : ∀ c ∈ other, holds c = true)
    (hrest : ∀ c ∈ rest.head?, holds c = false) (hothers : ∀ c ∈ others.head?, holds c = false)
    (h : first ++ rest = other ++ others) : first = other ∧ rest = others := by
  have htake : ∀ {rest : List Char}, (∀ c ∈ rest.head?, holds c = false) →
      rest.takeWhile holds = [] := by
    intro rest hrest
    cases rest with
    | nil => rfl
    | cons c rest => rw [List.takeWhile_cons_of_neg (by simp [hrest c rfl])]
  have hsame := congrArg (List.takeWhile holds) h
  rw [List.takeWhile_append_of_pos hfirst, List.takeWhile_append_of_pos hother, htake hrest,
    htake hothers, List.append_nil, List.append_nil] at hsame
  subst hsame
  exact ⟨rfl, List.append_cancel_left h⟩

theorem decimal_injective {n m : Nat} (h : decimal n = decimal m) : n = m := by
  have hread := congrArg digits? h
  rw [digits?_decimal, digits?_decimal] at hread
  exact Option.some.inj hread

end Text

open Text (decimal eq_and_eq_of_append_eq)

/-- The code that the text of a code shows. -/
def DurationCode.shown : DurationCode → DurationCode
  | denominator n => if n = 0 then breve else denominator n
  | code => code

namespace DurationCode

@[simp] theorem kern_shown (code : DurationCode) : code.shown.kern = code.kern := by
  cases code with
  | denominator n =>
    rw [shown]
    split
    · next h => rw [h]; rfl
    · rfl
  | breve | long | maxima => rfl

private theorem decimal_ne_zeros {n : Nat} {zeros : List Char} (h : zeros ≠ []) :
    decimal n ≠ '0' :: zeros :=
  fun heq => h (Text.eq_nil_of_decimal_eq_zero_cons heq)

private theorem shown_denominator_of_kern_eq {n : UInt32} {code : DurationCode}
    (h : (denominator n).kern = code.kern) : (denominator n).shown = code.shown := by
  cases code with
  | denominator m =>
    obtain rfl := UInt32.toNat_inj.mp (Text.decimal_injective h)
    rfl
  | breve =>
    have hzero : n.toNat = 0 := Text.decimal_injective h
    rw [shown, if_pos (UInt32.toNat_inj.mp hzero)]
    rfl
  | long => exact absurd h (decimal_ne_zeros (by simp))
  | maxima => exact absurd h (decimal_ne_zeros (by simp))

/-- What a kern record writes tells the code. -/
theorem shown_eq_of_kern_eq {code other : DurationCode} (h : code.kern = other.kern) :
    code.shown = other.shown := by
  cases code with
  | denominator n => exact shown_denominator_of_kern_eq h
  | breve | long | maxima =>
    cases other with
    | denominator n => exact (shown_denominator_of_kern_eq h.symm).symm
    | breve | long | maxima => first | rfl | cases h

theorem shown_eq_self {code : DurationCode} (h : code ≠ denominator 0) : code.shown = code := by
  cases code with
  | denominator n =>
    rw [shown, if_neg]
    rintro rfl
    exact h rfl
  | breve | long | maxima => rfl

end DurationCode

/-- The text of a duration begins with a digit. -/
theorem DottedDuration.exists_digit_cons_canonical (duration : DottedDuration) :
    ∃ c text, duration.canonical = c :: text ∧ c.isDigit = true := by
  obtain ⟨c, digits, hkern⟩ := List.exists_cons_of_ne_nil duration.code.kern_ne_nil
  have hmem : c ∈ duration.code.kern := by simp [hkern]
  refine ⟨c, digits ++ List.replicate duration.dots.toNat '.', ?_,
    DurationCode.isDigit_of_mem_kern hmem⟩
  rw [canonical, hkern, List.cons_append]

/-- The duration that the text of a duration shows. -/
def DottedDuration.shown (duration : DottedDuration) : DottedDuration :=
  { duration with code := duration.code.shown }

theorem DottedDuration.shown_eq_of_canonical_eq {duration other : DottedDuration}
    (h : duration.canonical = other.canonical) : duration.shown = other.shown := by
  obtain ⟨code, dots⟩ := duration
  obtain ⟨otherCode, otherDots⟩ := other
  have hdots : ∀ n, ∀ c ∈ (List.replicate n '.').head?, c.isDigit = false := by
    intro n c hc
    obtain rfl := List.eq_of_mem_replicate (List.mem_of_mem_head? hc)
    rfl
  obtain ⟨hcode, hsame⟩ := eq_and_eq_of_append_eq (fun c hc => DurationCode.isDigit_of_mem_kern hc)
    (fun c hc => DurationCode.isDigit_of_mem_kern hc) (hdots _) (hdots _) h
  have hlength := congrArg List.length hsame
  rw [List.length_replicate, List.length_replicate] at hlength
  rw [shown, shown, DurationCode.shown_eq_of_kern_eq hcode, UInt8.toNat_inj.mp hlength]

/-- The text of an accidental or of none, with a question mark for one that is left open. -/
private def accidentalText : Constraint Accidental → List Char
  | .any => ['?']
  | .exact accidental => accidental.code

/-- The digits that the text of an accidental begins with. They follow those of the octave. -/
private def accidentalDigits : Constraint Accidental → List Char
  | .exact .quarterSharp => ['1']
  | _ => []

/-- The text of an accidental without the digits that it begins with. -/
private def accidentalRest : Constraint Accidental → List Char
  | .exact .quarterSharp => ['q', 's']
  | accidental => accidentalText accidental

private theorem accidentalText_eq (accidental : Constraint Accidental) :
    accidentalText accidental = accidentalDigits accidental ++ accidentalRest accidental := by
  cases accidental with
  | any => rfl
  | exact accidental => cases accidental <;> rfl

private theorem eq_of_accidentalRest_eq {accidental other : Constraint Accidental}
    (h : accidentalRest accidental = accidentalRest other) : accidental = other := by
  rcases accidental with _ | accidental <;> rcases other with _ | other
  · rfl
  · cases other <;> cases h
  · cases accidental <;> cases h
  · cases accidental <;> cases other <;> first | rfl | cases h

private theorem isDigit_of_mem_accidentalDigits {accidental : Constraint Accidental} {c : Char}
    (h : c ∈ accidentalDigits accidental) : c.isDigit = true := by
  unfold accidentalDigits at h
  split at h
  · obtain rfl := List.mem_singleton.mp h
    rfl
  · cases h

private theorem isDigit_of_head_accidentalRest {accidental : Constraint Accidental} {c : Char}
    (h : c ∈ (accidentalRest accidental).head?) : c.isDigit = false := by
  rcases accidental with _ | accidental
  · obtain rfl := Option.some.inj h
    rfl
  · cases accidental <;> cases h <;> rfl

/-- The digits of a number, and then an accidental. -/
private theorem eq_and_eq_of_decimal_append {n m : Nat} {accidental other : Constraint Accidental}
    (h : decimal n ++ accidentalText accidental = decimal m ++ accidentalText other) :
    n = m ∧ accidental = other := by
  have hdigits : ∀ n accidental, ∀ c ∈ decimal n ++ accidentalDigits accidental,
      c.isDigit = true := fun n accidental c hc =>
    (List.mem_append.mp hc).elim Text.isDigit_of_mem_decimal isDigit_of_mem_accidentalDigits
  rw [accidentalText_eq, accidentalText_eq, ← List.append_assoc, ← List.append_assoc] at h
  obtain ⟨hsame, hrest⟩ := eq_and_eq_of_append_eq (hdigits n accidental) (hdigits m other)
    (fun c hc => isDigit_of_head_accidentalRest hc)
    (fun c hc => isDigit_of_head_accidentalRest hc) h
  obtain rfl := eq_of_accidentalRest_eq hrest
  exact ⟨Text.decimal_injective (List.append_cancel_right hsame), rfl⟩

/-- An octave, and then an accidental. -/
private theorem eq_and_eq_of_octave_append {octave otherOctave : Octave}
    {accidental other : Constraint Accidental}
    (h : octave.text ++ accidentalText accidental = otherOctave.text ++ accidentalText other) :
    octave = otherOctave ∧ accidental = other := by
  have hsign : ∀ (n : Nat) (rest text : List Char), decimal n ++ rest ≠ '-' :: text := by
    intro n rest text heq
    obtain ⟨c, digits, hcons, hdigit⟩ := Text.exists_digit_cons_decimal n
    rw [hcons] at heq
    rw [(List.cons.inj heq).1] at hdigit
    cases hdigit
  obtain ⟨number, low, high⟩ := octave
  obtain ⟨otherNumber, otherLow, otherHigh⟩ := otherOctave
  -- A minus sign in front of both or of neither, and then the digits.
  have hnumber : number = otherNumber ∧ accidental = other := by
    simp only [Octave.text, Text.signedDecimal] at h
    split at h <;> split at h
    · obtain ⟨habs, haccidental⟩ := eq_and_eq_of_decimal_append (List.cons.inj h).2
      exact ⟨by omega, haccidental⟩
    · exact absurd h.symm (hsign _ _ _)
    · exact absurd h (hsign _ _ _)
    · obtain ⟨habs, haccidental⟩ := eq_and_eq_of_decimal_append h
      exact ⟨by omega, haccidental⟩
  obtain ⟨rfl, rfl⟩ := hnumber
  exact ⟨rfl, rfl⟩

theorem PitchPattern.canonical_injective {pitch other : PitchPattern}
    (h : pitch.canonical = other.canonical) : pitch = other := by
  obtain ⟨letter, octave, accidental⟩ := pitch
  obtain ⟨otherLetter, otherOctave, otherAccidental⟩ := other
  have htext : ∀ pitch : PitchPattern, pitch.canonical =
      pitch.letter.char :: (pitch.octave.text ++ accidentalText pitch.accidental) := by
    rintro ⟨letter, octave, _ | accidental⟩ <;> rfl
  rw [htext, htext] at h
  obtain ⟨hletter, hrest⟩ := List.cons.inj h
  obtain ⟨rfl, rfl⟩ := eq_and_eq_of_octave_append hrest
  have hletters : letter = otherLetter := by
    have hread := congrArg PitchLetter.ofChar? hletter
    cases letter <;> cases otherLetter <;> first | rfl | cases hread
  rw [hletters]

namespace NotePattern

/-- The note that the text of a note shows. -/
def shown (note : NotePattern) : NotePattern :=
  match note.duration with
  | .any => note
  | .exact duration => { note with duration := .exact duration.shown }

/-- The text of the duration of a note. -/
private def durationText (note : NotePattern) : List Char :=
  match note.duration with
  | .any => ['*']
  | .exact duration => duration.canonical

/-- The text of the pitch of a note. -/
private def pitchText (note : NotePattern) : List Char :=
  match note.pitch with
  | .any => ['*']
  | .exact pitch => pitch.canonical

private theorem canonical_eq (note : NotePattern) :
    note.canonical = note.durationText ++ '/' :: note.pitchText := rfl

/-- The text of a duration begins with a digit or is a star. -/
private theorem exists_cons_durationText (note : NotePattern) :
    ∃ c text, note.durationText = c :: text ∧ (c.isDigit = true ∨ c = '*') := by
  obtain ⟨pitch, _ | duration⟩ := note
  · exact ⟨'*', [], rfl, Or.inr rfl⟩
  · obtain ⟨c, text, heq, hdigit⟩ := duration.exists_digit_cons_canonical
    exact ⟨c, text, heq, Or.inl hdigit⟩

/-- The characters in the texts of durations and pitches. -/
def isTextChar (c : Char) : Bool :=
  c.isDigit || c.isLower || c == '*' || c == '.' || c == '-' || c == '?'

private theorem isTextChar_of_isDigit {c : Char} (h : c.isDigit = true) : isTextChar c = true := by
  simp [isTextChar, h]

private theorem isTextChar_of_mem_durationText {note : NotePattern} {c : Char}
    (h : c ∈ note.durationText) : isTextChar c = true := by
  obtain ⟨pitch, _ | duration⟩ := note
  · obtain rfl := List.mem_singleton.mp h
    rfl
  · rcases List.mem_append.mp h with h | h
    · exact isTextChar_of_isDigit (DurationCode.isDigit_of_mem_kern h)
    · rw [List.eq_of_mem_replicate h]
      rfl

private theorem isTextChar_of_mem_accidentalText {accidental : Constraint Accidental} {c : Char}
    (h : c ∈ accidentalText accidental) : isTextChar c = true := by
  have hall : (accidentalText accidental).all isTextChar = true := by
    rcases accidental with _ | accidental
    · rfl
    · cases accidental <;> rfl
  exact List.all_eq_true.mp hall c h

private theorem isTextChar_of_mem_pitchText {note : NotePattern} {c : Char}
    (h : c ∈ note.pitchText) : isTextChar c = true := by
  obtain ⟨_ | ⟨letter, octave, accidental⟩, duration⟩ := note
  · obtain rfl := List.mem_singleton.mp h
    rfl
  · have hoctave : ∀ c ∈ octave.text, isTextChar c = true := by
      intro c hc
      rw [Octave.text, Text.signedDecimal] at hc
      split at hc
      · rcases List.mem_cons.mp hc with rfl | hc
        · rfl
        · exact isTextChar_of_isDigit (Text.isDigit_of_mem_decimal hc)
      · exact isTextChar_of_isDigit (Text.isDigit_of_mem_decimal hc)
    have hmem : c ∈ letter.char :: (octave.text ++ accidentalText accidental) := by
      cases accidental <;> exact h
    rcases List.mem_cons.mp hmem with rfl | hmem
    · cases letter <;> rfl
    · rcases List.mem_append.mp hmem with hmem | hmem
      · exact hoctave c hmem
      · exact isTextChar_of_mem_accidentalText hmem

/-- The characters in the texts of notes. -/
def isInNote (c : Char) : Bool :=
  isTextChar c || c == '/'

private theorem isInNote_of_mem_canonical {note : NotePattern} {c : Char}
    (h : c ∈ note.canonical) : isInNote c = true := by
  rw [canonical_eq] at h
  rcases List.mem_append.mp h with h | h
  · rw [isInNote, isTextChar_of_mem_durationText h, Bool.true_or]
  · rcases List.mem_cons.mp h with rfl | h
    · rfl
    · rw [isInNote, isTextChar_of_mem_pitchText h, Bool.true_or]

/-- The text of a note begins with a digit or with a star. -/
theorem exists_cons_canonical (note : NotePattern) :
    ∃ c text, note.canonical = c :: text ∧ (c.isDigit = true ∨ c = '*') := by
  obtain ⟨c, text, heq, hc⟩ := note.exists_cons_durationText
  exact ⟨c, text ++ '/' :: note.pitchText, by rw [canonical_eq, heq, List.cons_append], hc⟩

theorem canonical_append_ne (note : NotePattern) {c : Char} {rest text : List Char}
    (hdigit : c.isDigit = false) (hstar : c ≠ '*') : note.canonical ++ rest ≠ c :: text := by
  obtain ⟨first, more, heq, hfirst⟩ := note.exists_cons_canonical
  intro h
  rw [heq] at h
  obtain rfl := (List.cons.inj h).1
  exact hfirst.elim (fun hfirst => absurd hfirst (by simp [hdigit])) hstar

private theorem shown_eq_of_canonical_eq {note other : NotePattern}
    (h : note.canonical = other.canonical) : note.shown = other.shown := by
  rw [canonical_eq, canonical_eq] at h
  have hslash : ∀ text : List Char, ∀ c ∈ ('/' :: text).head?, isTextChar c = false := by
    intro text c hc
    obtain rfl := Option.some.inj hc
    rfl
  obtain ⟨hduration, hpitch⟩ := eq_and_eq_of_append_eq
    (fun c hc => isTextChar_of_mem_durationText hc) (fun c hc => isTextChar_of_mem_durationText hc)
    (hslash _) (hslash _) h
  have hpitch := (List.cons.inj hpitch).2
  obtain ⟨pitch, duration⟩ := note
  obtain ⟨otherPitch, otherDuration⟩ := other
  -- A star is neither a letter nor a digit.
  have hstar : ∀ (duration : DottedDuration), ['*'] ≠ duration.canonical := by
    intro duration heq
    obtain ⟨c, text, hcons, hdigit⟩ := duration.exists_digit_cons_canonical
    obtain rfl := (List.cons.inj (heq.trans hcons)).1
    cases hdigit
  have hletter : ∀ (pitch : PitchPattern), ['*'] ≠ pitch.canonical := by
    rintro ⟨letter, octave, accidental⟩ heq
    have hchar := (List.cons.inj heq).1
    cases letter <;> cases hchar
  have hpitches : pitch = otherPitch := by
    rcases pitch with _ | pitch <;> rcases otherPitch with _ | otherPitch
    · rfl
    · exact absurd hpitch (hletter _)
    · exact absurd hpitch.symm (hletter _)
    · rw [PitchPattern.canonical_injective hpitch]
  subst hpitches
  rcases duration with _ | duration <;> rcases otherDuration with _ | otherDuration
  · rfl
  · exact absurd hduration (hstar _)
  · exact absurd hduration.symm (hstar _)
  · simp only [shown, DottedDuration.shown_eq_of_canonical_eq hduration]

/-- The text of a note with a blank or a bracket after it tells the note, and the rest. -/
theorem shown_eq_of_canonical_append {note other : NotePattern} {rest others : List Char}
    (hrest : ∀ c ∈ rest.head?, isInNote c = false)
    (hothers : ∀ c ∈ others.head?, isInNote c = false)
    (h : note.canonical ++ rest = other.canonical ++ others) :
    note.shown = other.shown ∧ rest = others := by
  obtain ⟨hcanonical, heq⟩ := eq_and_eq_of_append_eq (fun c hc => isInNote_of_mem_canonical hc)
    (fun c hc => isInNote_of_mem_canonical hc) hrest hothers h
  exact ⟨shown_eq_of_canonical_eq hcanonical, heq⟩

/-- The denominator of a note is not zero. -/
def IsProper (note : NotePattern) : Prop :=
  ∀ duration, note.duration = .exact duration → duration.code ≠ .denominator 0

/-- A proper note is shown as it is. -/
theorem shown_eq_self {note : NotePattern} (h : note.IsProper) : note.shown = note := by
  obtain ⟨pitch, _ | duration⟩ := note
  · rfl
  · simp only [shown, DottedDuration.shown, DurationCode.shown_eq_self (h duration rfl)]

@[simp] theorem expression_shown (note : NotePattern) :
    note.shown.expression = note.expression := by
  obtain ⟨pitch, _ | duration⟩ := note
  · rfl
  · simp [shown, expression, durationExpression, pitchExpression, DottedDuration.expression,
      DottedDuration.shown]

@[simp] theorem fallbacks_shown (note : NotePattern) : note.shown.fallbacks = note.fallbacks := by
  obtain ⟨pitch, _ | duration⟩ := note <;> rfl

end NotePattern

end MotifSearch
