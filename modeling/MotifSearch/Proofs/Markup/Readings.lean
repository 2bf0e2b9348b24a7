import MotifSearch.Markup.Pattern
import MotifSearch.Proofs.Except

/-!
# The attributes that are read

Which attributes of an element are read depends on its flags, and on whether a note has a letter. A
note or the bounds of a group are what the values say, and the defaults where nothing is given,
unless one of the attributes that are read has a value that is rejected. Then the first of these is
reported.

## Main definitions

* `Reading`, `Reading.check` — an attribute that is read, and what comes of all of them
* `NotePattern.readings`, `NotePattern.implied` — the attributes of a note that are read, and the
  note that they ask for
* `Bounds.readings`, `Bounds.implied` — the same for the bounds of a group

## Main results

* `NotePattern.ofElement_eq`, `Bounds.ofElement_eq` — notes and bounds are what is implied, unless
  a value is rejected
-/

namespace MotifSearch

open Markup (attribute? flag)
open Xml (Element)

/-- An attribute that is read, with its value. -/
structure Reading where
  fault : AttributeFault
  value : List Char
  accepted : Bool

namespace Reading

/-- What is wrong with a value that is rejected. -/
def error? (reading : Reading) : Option PatternError :=
  if reading.accepted then none else some (.malformed reading.fault reading.value)

/-- A result, unless a value is rejected. -/
def check {α : Type} (readings : List Reading) (result : α) : Except PatternError α :=
  match readings.findSome? error? with
  | some error => .error error
  | none => .ok result

variable {α β : Type} {first second : List Reading}

@[simp] theorem check_nil (result : α) : check [] result = .ok result := rfl

@[simp] theorem error?_eq_none_iff {reading : Reading} :
    reading.error? = none ↔ reading.accepted = true := by
  simp [error?]

/-- What is read later matters only where nothing is rejected before. -/
theorem check_bind {result : α} {other : β} {next : α → Except PatternError β}
    (h : next result = check second other) :
    (check first result >>= next) = check (first ++ second) other := by
  unfold check at *
  rw [List.findSome?_append]
  cases first.findSome? error? with
  | some error => rfl
  | none => exact h

theorem check_bind_ok {result : α} (f : α → β) :
    (check first result >>= fun a => .ok (f a)) = check first (f result) := by
  unfold check
  cases first.findSome? error? <;> rfl

theorem eq_of_check_eq_ok {readings : List Reading} {result value : α}
    (h : check readings result = .ok value) : value = result := by
  unfold check at h
  split at h <;> cases h
  rfl

@[simp] theorem map_check {readings : List Reading} {result : α} (f : α → β) :
    (check readings result).map f = check readings (f result) := by
  unfold check
  cases readings.findSome? error? <;> rfl

end Reading

open Reading (check check_nil check_bind check_bind_ok)

section Attribute

variable {α : Type} (fault : AttributeFault) (read : List Char → Option α) (element : Element)

/-- The value that is given by an attribute, if it is accepted. -/
def given? : Option α :=
  (attribute? element fault.attributeName).bind read

/-- The reading of an attribute, if it is given. -/
def readingOf : List Reading :=
  (attribute? element fault.attributeName).toList.map fun value =>
    ⟨fault, value, (read value).isSome⟩

variable {element}

theorem readingOf_of_none (h : attribute? element fault.attributeName = none) :
    readingOf fault read element = [] ∧ given? fault read element = none := by
  rw [readingOf, given?, h]
  exact ⟨rfl, rfl⟩

theorem readingOf_of_some {value : List Char}
    (h : attribute? element fault.attributeName = some value) :
    readingOf fault read element = [⟨fault, value, (read value).isSome⟩] ∧
      given? fault read element = read value := by
  rw [readingOf, given?, h]
  exact ⟨rfl, rfl⟩

variable {fault read}

theorem readAttribute_of_none (h : attribute? element fault.attributeName = none) :
    readAttribute fault read element = .ok none := by
  rw [readAttribute, h]

theorem readAttribute_of_some {value : List Char} {result : α}
    (h : attribute? element fault.attributeName = some value) (hread : read value = some result) :
    readAttribute fault read element = .ok (some result) := by
  rw [readAttribute, h]
  simp [hread]

/-- An attribute is what is given, unless its value is rejected. -/
theorem readAttribute_eq :
    readAttribute fault read element = check (readingOf fault read element)
      (given? fault read element) := by
  rw [readAttribute]
  cases hvalue : attribute? element fault.attributeName with
  | none =>
    obtain ⟨hreading, hgiven⟩ := readingOf_of_none fault read hvalue
    rw [hreading, hgiven]
    rfl
  | some value =>
    obtain ⟨hreading, hgiven⟩ := readingOf_of_some fault read hvalue
    rw [hreading, hgiven]
    dsimp only
    cases read value <;> rfl

end Attribute

namespace NotePattern

variable (element : Element)

/-- How the number of dots is read. -/
def dotCount (text : List Char) : Option UInt8 :=
  Text.readUInt8 (Text.trim text)

/-- What is read for the duration. -/
def durationReadings : List Reading :=
  if flag element "any-duration" then []
  else readingOf .duration DurationCode.ofText? element ++ readingOf .dots dotCount element

/-- The duration: a quarter note without dots, unless something else is given. -/
def impliedDuration : Constraint DottedDuration :=
  if flag element "any-duration" then .any
  else .exact ⟨(given? .duration DurationCode.ofText? element).getD (.denominator 4),
    (given? .dots dotCount element).getD 0⟩

/-- What is read for the accidental. -/
def accidentalReadings : List Reading :=
  if flag element "any-accidental" then []
  else readingOf .accidental Accidental.ofText? element

/-- The accidental: none, unless one is given. -/
def impliedAccidental : Constraint Accidental :=
  if flag element "any-accidental" then .any
  else .exact ((given? .accidental Accidental.ofText? element).getD .plain)

/-- What is read for the letter and the octave. An octave without a letter is not even looked at. -/
def letterReadings : List Reading :=
  match attribute? element "pname", attribute? element "oct" with
  | none, none => []
  | none, some _ => [⟨.letterMissing, [], false⟩]
  | some _, _ =>
    readingOf .letter PitchLetter.ofText? element ++ readingOf .octave Octave.ofText? element

/-- The letter and the octave: octave 4 for a letter alone, and c in octave 5 without a letter. -/
def impliedLetter : PitchLetter × Octave :=
  match given? .letter PitchLetter.ofText? element with
  | some letter => (letter, (given? .octave Octave.ofText? element).getD (.clamp 4))
  | none => (.c, .clamp 5)

/-- What is read for the pitch. -/
def pitchReadings : List Reading :=
  if flag element "any-pitch" then [] else letterReadings element ++ accidentalReadings element

/-- The pitch. -/
def impliedPitch : Constraint PitchPattern :=
  if flag element "any-pitch" then .any
  else .exact ⟨(impliedLetter element).1, (impliedLetter element).2, impliedAccidental element⟩

/-- What is read of a note, in this order. -/
def readings : List Reading :=
  pitchReadings element ++ durationReadings element

/-- The note that an element asks for, with the defaults for what is not given. -/
def implied : NotePattern :=
  ⟨impliedPitch element, impliedDuration element⟩

variable {element}

theorem durationOfElement_eq :
    durationOfElement element = check (durationReadings element) (impliedDuration element) := by
  rw [durationOfElement, durationReadings, impliedDuration]
  split
  · rfl
  · rw [readAttribute_eq]
    apply check_bind
    rw [readAttribute_eq]
    exact check_bind_ok _

theorem accidentalOfElement_eq : accidentalOfElement element =
    check (accidentalReadings element) (impliedAccidental element) := by
  rw [accidentalOfElement, accidentalReadings, impliedAccidental]
  split
  · rfl
  · rw [readAttribute_eq]
    exact check_bind_ok _

theorem letterOfElement_eq :
    letterOfElement element = check (letterReadings element) (impliedLetter element) := by
  rw [letterOfElement, letterReadings, impliedLetter, readAttribute_eq]
  cases hletter : attribute? element "pname" with
  | none =>
    -- There is no letter, and whether that is a fault depends on whether there is an octave.
    obtain ⟨hreading, hgiven⟩ := readingOf_of_none .letter PitchLetter.ofText? hletter
    rw [hreading, hgiven, show AttributeFault.octave.attributeName = "oct" from rfl]
    cases attribute? element "oct" <;> rfl
  | some value =>
    obtain ⟨hreading, hgiven⟩ := readingOf_of_some .letter PitchLetter.ofText? hletter
    rw [hreading, hgiven]
    cases PitchLetter.ofText? value with
    | none => rfl
    | some letter =>
      apply check_bind
      rw [readAttribute_eq]
      exact check_bind_ok _

theorem pitchOfElement_eq :
    pitchOfElement element = check (pitchReadings element) (impliedPitch element) := by
  rw [pitchOfElement, pitchReadings, impliedPitch]
  split
  · rfl
  · rw [letterOfElement_eq]
    apply check_bind
    rw [accidentalOfElement_eq]
    exact check_bind_ok _

/-- A note is what its element asks for, unless a value that is read is rejected. -/
theorem ofElement_eq : ofElement element = check (readings element) (implied element) := by
  rw [ofElement, readings, implied, pitchOfElement_eq]
  apply check_bind
  rw [durationOfElement_eq]
  exact check_bind_ok _

end NotePattern

namespace Bounds

variable (element : Element)

/-- How a number of occurrences is read. -/
def occurrenceCount (text : List Char) : Option UInt32 :=
  Text.readUInt32 (Text.trim text)

/-- What is read of the bounds of a group, in this order. -/
def readings : List Reading :=
  readingOf .minOccurrences occurrenceCount element ++
    readingOf .maxOccurrences occurrenceCount element

/-- The bounds that are given. -/
def implied : Bounds :=
  ⟨given? .minOccurrences occurrenceCount element, given? .maxOccurrences occurrenceCount element⟩

/-- Bounds are what is given, unless a value is rejected. -/
theorem ofElement_eq : ofElement element = check (readings element) (implied element) := by
  rw [ofElement, readings, implied]
  change (readAttribute .minOccurrences occurrenceCount element >>= fun min =>
    readAttribute .maxOccurrences occurrenceCount element >>= fun max =>
      .ok (Bounds.mk min max)) = _
  rw [readAttribute_eq]
  apply check_bind
  rw [readAttribute_eq]
  exact check_bind_ok _

end Bounds

end MotifSearch
