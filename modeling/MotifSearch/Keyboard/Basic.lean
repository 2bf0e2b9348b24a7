import MotifSearch.Note.Accidental
import MotifSearch.Note.Pitch
import MotifSearch.Text.Quoted

/-!
# Entering patterns from a keyboard

A pattern can be entered note by note. New notes take the octave, the duration and the dot that are
set at the time, go to the end and become selected; the keys that edit act on the selected note and
do nothing without one. The octave for new notes follows the octave of the note that is edited.

## Main definitions

* `EnteredNote`, `Keyboard` — a note, and all notes with what is set and selected
* `Key`, `Keyboard.press` — the keys and what they do
* `Keyboard.mei` — the markup of the notes

## Main results

* `length_notes_withSelected` — editing keeps the number of notes
-/

namespace MotifSearch

/-- A note that has been entered. -/
structure EnteredNote where
  letter : PitchLetter
  octave : Octave
  duration : UInt32
  dotted : Bool
  accidental : Option Accidental
  deriving DecidableEq

/-- The notes that have been entered, what is set for new ones, and which note is selected. -/
structure Keyboard where
  duration : UInt32
  dotted : Bool
  octave : Octave
  notes : List EnteredNote
  selected : Option Nat
  deriving DecidableEq

/-- Why a key does nothing. -/
inductive KeyError where
  | unsupportedDuration (duration : UInt32)
  | invalidLetter (text : List Char)
  deriving DecidableEq

/-- A cause in words. -/
def KeyError.message : KeyError → String
  | unsupportedDuration duration =>
    "Unsupported duration " ++ String.ofList (Text.decimal duration.toNat) ++
      " (expected one of 1, 2, 4, ... 128)"
  | invalidLetter text => "Invalid note letter: " ++ String.ofList (Text.quote text)

/-- The keys. -/
inductive Key where
  /-- Enter a note with the letter that a text spells. -/
  | note (text : List Char)
  /-- Set the duration of new notes. -/
  | duration (duration : UInt32)
  /-- Set whether new notes are dotted. -/
  | dotted
  | delete
  | next
  | previous
  | octaveUp
  | octaveDown
  | up
  | down
  | sharp
  | flat
  deriving DecidableEq

namespace Keyboard

/-- The durations that can be entered. -/
def durations : List UInt32 := [1, 2, 4, 8, 16, 32, 64, 128]

/-- A keyboard on which nothing has been entered. -/
def start : Keyboard :=
  { duration := 4, dotted := false, octave := .clamp 4, notes := [], selected := none }

/-- The note that is selected, if there is one. -/
def selectedNote (keyboard : Keyboard) : Option EnteredNote :=
  keyboard.selected.bind fun index => keyboard.notes[index]?

/-- Enter a note and select it. -/
def addNote (keyboard : Keyboard) (letter : PitchLetter) : Keyboard :=
  { keyboard with
    notes := keyboard.notes ++
      [⟨letter, keyboard.octave, keyboard.duration, keyboard.dotted, none⟩]
    selected := some keyboard.notes.length }

/-- Set the duration of new notes. -/
def setDuration (keyboard : Keyboard) (duration : UInt32) : Except KeyError Keyboard :=
  if duration ∈ durations then .ok { keyboard with duration }
  else .error (.unsupportedDuration duration)

/-- Set whether new notes are dotted. -/
def toggleDotted (keyboard : Keyboard) : Keyboard :=
  { keyboard with dotted := !keyboard.dotted }

/-- Delete the selected note and select the one before it, or else the first one. -/
def delete (keyboard : Keyboard) : Keyboard :=
  match keyboard.selected with
  | none => keyboard
  | some index =>
    let notes := keyboard.notes.eraseIdx index
    let selected := match index with
      | 0 => if notes.isEmpty then none else some 0
      | before + 1 => some before
    { keyboard with notes, selected }

/-- Select the next note, if there is one. Every index has one after it here: that the largest one
that a word can hold wraps around to the first note is left out. -/
def selectNext (keyboard : Keyboard) : Keyboard :=
  match keyboard.selected with
  | some index =>
    if index + 1 < keyboard.notes.length then { keyboard with selected := some (index + 1) }
    else keyboard
  | none => keyboard

/-- Select the previous note, if there is one. -/
def selectPrevious (keyboard : Keyboard) : Keyboard :=
  match keyboard.selected with
  | some (before + 1) => { keyboard with selected := some before }
  | _ => keyboard

/-- Edit the selected note. -/
def withSelected (keyboard : Keyboard) (edit : EnteredNote → EnteredNote) : Keyboard :=
  match keyboard.selected with
  | some index => { keyboard with notes := keyboard.notes.modify index edit }
  | none => keyboard

/-- Set the octave of the selected note, and that of new notes with it. -/
def setOctave (keyboard : Keyboard) (octave : Octave) : Keyboard :=
  if keyboard.selectedNote.isSome then
    { keyboard.withSelected ({ · with octave }) with octave }
  else keyboard

/-- Move the selected note to the octave above the one that is set. -/
def octaveUp (keyboard : Keyboard) : Keyboard :=
  keyboard.setOctave keyboard.octave.up

/-- Move the selected note to the octave below the one that is set. -/
def octaveDown (keyboard : Keyboard) : Keyboard :=
  keyboard.setOctave keyboard.octave.down

/-- Raise the selected note by one letter; an octave begins at c. -/
def moveUp (keyboard : Keyboard) : Keyboard :=
  match keyboard.selectedNote with
  | none => keyboard
  | some note =>
    let moved := keyboard.withSelected ({ · with letter := note.letter.up })
    -- A note that comes to c has passed into the next octave.
    if note.letter.up = .c then moved.octaveUp else moved

/-- Lower the selected note by one letter; an octave ends at b. -/
def moveDown (keyboard : Keyboard) : Keyboard :=
  match keyboard.selectedNote with
  | none => keyboard
  | some note =>
    let moved := keyboard.withSelected ({ · with letter := note.letter.down })
    -- A note that comes to b has passed into the octave below.
    if note.letter.down = .b then moved.octaveDown else moved

/-- Give the selected note an accidental, or take it away if the note has it. -/
def toggleAccidental (keyboard : Keyboard) (accidental : Accidental) : Keyboard :=
  keyboard.withSelected fun note =>
    { note with
      accidental := if note.accidental = some accidental then none else some accidental }

/-- Press a key. -/
def press (keyboard : Keyboard) : Key → Except KeyError Keyboard
  | .note text =>
    match PitchLetter.ofText? text with
    | some letter => .ok (keyboard.addNote letter)
    | none => .error (.invalidLetter text)
  | .duration duration => keyboard.setDuration duration
  | .dotted => .ok keyboard.toggleDotted
  | .delete => .ok keyboard.delete
  | .next => .ok keyboard.selectNext
  | .previous => .ok keyboard.selectPrevious
  | .octaveUp => .ok keyboard.octaveUp
  | .octaveDown => .ok keyboard.octaveDown
  | .up => .ok keyboard.moveUp
  | .down => .ok keyboard.moveDown
  | .sharp => .ok (keyboard.toggleAccidental .sharp)
  | .flat => .ok (keyboard.toggleAccidental .flat)

/-- An attribute of a note element. -/
def meiAttribute (name : String) (value : List Char) : List Char :=
  [' '] ++ name.toList ++ ['=', '"'] ++ value ++ ['"']

/-- The element of a note. The selected note has a colour. -/
def noteMei (note : EnteredNote) (isSelected : Bool) : List Char :=
  let dots := if note.dotted then meiAttribute "dots" ['1'] else []
  let accidental := match note.accidental.bind Accidental.code? with
    | some code => meiAttribute "accid" code
    | none => []
  let color := if isSelected then meiAttribute "color" "red".toList else []
  "<note".toList ++ meiAttribute "pname" [note.letter.char] ++
    meiAttribute "dur" (Text.decimal note.duration.toNat) ++
    meiAttribute "oct" note.octave.text ++ dots ++ accidental ++ color ++ ['/', '>']

/-- The markup of the notes. -/
def mei (keyboard : Keyboard) : List Char :=
  (keyboard.notes.mapIdx fun index note => noteMei note (keyboard.selected == some index)).flatten

/-- Editing keeps the number of notes. -/
theorem length_notes_withSelected (keyboard : Keyboard) (edit : EnteredNote → EnteredNote) :
    (keyboard.withSelected edit).notes.length = keyboard.notes.length := by
  unfold withSelected
  split <;> simp

end Keyboard

end MotifSearch
