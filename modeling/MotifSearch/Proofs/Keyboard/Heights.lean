import Mathlib.Data.List.Basic
import MotifSearch.Proofs.Keyboard.Reached

/-!
# Heights of edited notes

The height of a note counts the letters below it, seven to an octave. Four keys are there to move
the selected note by a number of steps. Where a note changes its octave, the new octave is counted
from the octave of new notes, not from that of the note itself; so the note moves as far as it
should if the two octaves are the same, and otherwise by as many octaves too far as lie between
them.

The two octaves are the same from the time a note is entered until another note is selected.

## Main definitions

* `EnteredNote.height` — the height of a note
* `Key.interval?` — by how much a key should move the selected note
* `Keyboard.moved` — the keyboard with the selected note moved
* `Keyboard.IsInStep` — new notes take the octave of the selected note

## Main results

* `Keyboard.press_of_interval` — what the four keys do
* `Keyboard.height_move` — how far they move a note
* `Keyboard.isInStep_after_note` — when the octaves are the same
* `Keyboard.heights_of_edits` — both of these together
-/

namespace MotifSearch

/-- How many letters of an octave are below a letter. -/
def PitchLetter.position : PitchLetter → Int
  | c => 0
  | d => 1
  | e => 2
  | f => 3
  | g => 4
  | a => 5
  | b => 6

theorem Octave.number_inj {octave other : Octave} :
    octave.number = other.number ↔ octave = other := by
  cases octave
  cases other
  simp

/-- The number of letters below a note, from octave 0 on. -/
def EnteredNote.height (note : EnteredNote) : Int :=
  7 * note.octave.number + note.letter.position

namespace Key

/-- By how much a key should move the selected note. -/
def interval? : Key → Option Int
  | octaveUp => some 7
  | octaveDown => some (-7)
  | up => some 1
  | down => some (-1)
  | _ => none

/-- The letter that a key gives to a note with a letter. -/
def letter (letter : PitchLetter) : Key → PitchLetter
  | up => letter.up
  | down => letter.down
  | _ => letter

/-- By how many octaves a key moves a note with a letter. -/
def octaves (letter : PitchLetter) : Key → Int
  | octaveUp => 1
  | octaveDown => -1
  | up => if letter.up = .c then 1 else 0
  | down => if letter.down = .b then -1 else 0
  | _ => 0

/-- The octave of a note after a key, where `octave` is that of new notes. -/
def octaveAfter (key : Key) (octave : Octave) (note : EnteredNote) : Octave :=
  if key.octaves note.letter = 0 then note.octave
  else .clamp (octave.number + key.octaves note.letter)

/-- A note after a key, where `octave` is the octave of new notes. -/
def move (key : Key) (octave : Octave) (note : EnteredNote) : EnteredNote :=
  { note with letter := key.letter note.letter, octave := key.octaveAfter octave note }

/-- The letters and the octaves of an interval. -/
theorem interval_eq {key : Key} {interval : Int} (h : key.interval? = some interval)
    (letter : PitchLetter) :
    interval = 7 * key.octaves letter + ((key.letter letter).position - letter.position) := by
  cases key <;> cases h <;> cases letter <;> rfl

end Key

namespace Keyboard

variable {keyboard next : Keyboard} {key : Key} {index : Nat} {note : EnteredNote}
  {edit : EnteredNote → EnteredNote} {octave : Octave}

/-- The keyboard after a key that moves the selected note. -/
def moved (keyboard : Keyboard) (key : Key) (index : Nat) (note : EnteredNote) : Keyboard :=
  { keyboard with
    notes := keyboard.notes.set index (key.move keyboard.octave note)
    octave := if key.octaves note.letter = 0 then keyboard.octave
      else key.octaveAfter keyboard.octave note }

section Move

theorem selectedNote_eq (hselected : keyboard.selected = some index)
    (hnote : keyboard.notes[index]? = some note) : keyboard.selectedNote = some note := by
  rw [selectedNote, hselected, Option.bind_some, hnote]

theorem withSelected_eq_set (hselected : keyboard.selected = some index)
    (hnote : keyboard.notes[index]? = some note) :
    keyboard.withSelected edit =
      { keyboard with notes := keyboard.notes.set index (edit note) } := by
  rw [withSelected, hselected]
  simp only [List.modify_eq_set_getElem?, hnote, Option.map_eq_map, Option.map_some,
    Option.getD_some]

theorem setOctave_eq_set (hselected : keyboard.selected = some index)
    (hnote : keyboard.notes[index]? = some note) :
    keyboard.setOctave octave =
      { keyboard with notes := keyboard.notes.set index { note with octave }, octave } := by
  rw [setOctave, selectedNote_eq hselected hnote, withSelected_eq_set hselected hnote]
  rfl

/-- An edit of the letter before one of the octave. -/
theorem setOctave_withSelected_eq_set (hselected : keyboard.selected = some index)
    (hnote : keyboard.notes[index]? = some note) :
    (keyboard.withSelected edit).setOctave octave =
      { keyboard with notes := keyboard.notes.set index { edit note with octave }, octave } := by
  obtain ⟨hlt, -⟩ := List.getElem?_eq_some_iff.mp hnote
  have hedited : (keyboard.withSelected edit).notes[index]? = some (edit note) := by
    rw [withSelected_eq_set hselected hnote]
    exact List.getElem?_set_self hlt
  rw [setOctave_eq_set (selected_withSelected.trans hselected) hedited,
    withSelected_eq_set hselected hnote]
  simp only [List.set_set]

/-- What the four keys do. -/
theorem press_of_interval {interval : Int} (hinterval : key.interval? = some interval)
    (hselected : keyboard.selected = some index) (hnote : keyboard.notes[index]? = some note) :
    keyboard.press key = .ok (keyboard.moved key index note) := by
  have hsel := selectedNote_eq hselected hnote
  -- The keys for octaves set the octave at once; those for letters set it after the letter, if the
  -- new letter lies in another octave.
  cases key with
  | octaveUp => exact congrArg Except.ok (setOctave_eq_set hselected hnote)
  | octaveDown => exact congrArg Except.ok (setOctave_eq_set hselected hnote)
  | up =>
    rw [press, moveUp, hsel]
    dsimp only
    split
    · next hletter =>
      rw [octaveUp, octave_withSelected, setOctave_withSelected_eq_set hselected hnote]
      simp [moved, Key.move, Key.letter, Key.octaves, Key.octaveAfter, hletter, Octave.up]
    · next hletter =>
      rw [withSelected_eq_set hselected hnote]
      simp [moved, Key.move, Key.letter, Key.octaves, Key.octaveAfter, hletter]
  | down =>
    rw [press, moveDown, hsel]
    dsimp only
    split
    · next hletter =>
      rw [octaveDown, octave_withSelected, setOctave_withSelected_eq_set hselected hnote]
      simp [moved, Key.move, Key.letter, Key.octaves, Key.octaveAfter, hletter, Octave.down,
        Int.sub_eq_add_neg]
    · next hletter =>
      rw [withSelected_eq_set hselected hnote]
      simp [moved, Key.move, Key.letter, Key.octaves, Key.octaveAfter, hletter]
  | _ => cases hinterval

/-- How far the four keys move a note: as far as they should, and as many octaves farther as the
octave of new notes is higher, if the note changes its octave. -/
theorem height_move {interval : Int} (hinterval : key.interval? = some interval)
    (hlow : -128 ≤ octave.number + key.octaves note.letter)
    (hhigh : octave.number + key.octaves note.letter ≤ 127) :
    (key.move octave note).height = note.height + interval +
      if key.octaves note.letter = 0 then 0 else 7 * (octave.number - note.octave.number) := by
  have hsum := Key.interval_eq hinterval note.letter
  simp only [EnteredNote.height, Key.move, Key.octaveAfter]
  split
  · next hzero => omega
  · have hnumber : (Octave.clamp (octave.number + key.octaves note.letter)).number =
        octave.number + key.octaves note.letter := by
      simp only [Octave.clamp]
      omega
    omega

end Move

section InStep

/-- New notes take the octave of the selected note. -/
def IsInStep (keyboard : Keyboard) : Prop :=
  ∀ note, keyboard.selectedNote = some note → keyboard.octave = note.octave

theorem selectedNote_withSelected :
    (keyboard.withSelected edit).selectedNote = keyboard.selectedNote.map edit := by
  cases hselected : keyboard.selected with
  | none => simp [selectedNote, withSelected, hselected]
  | some index => simp [selectedNote, withSelected, hselected, List.getElem?_modify]

theorem IsInStep.withSelected (h : keyboard.IsInStep)
    (hedit : ∀ note, (edit note).octave = note.octave) : (keyboard.withSelected edit).IsInStep := by
  intro note hnote
  rw [selectedNote_withSelected, Option.map_eq_some_iff] at hnote
  obtain ⟨before, hbefore, rfl⟩ := hnote
  rw [octave_withSelected, hedit]
  exact h before hbefore

theorem isInStep_setOctave (keyboard : Keyboard) (octave : Octave) :
    (keyboard.setOctave octave).IsInStep := by
  unfold setOctave
  split
  · intro note hnote
    have hedited : (keyboard.withSelected ({ · with octave })).selectedNote = some note := hnote
    rw [selectedNote_withSelected, Option.map_eq_some_iff] at hedited
    obtain ⟨before, -, rfl⟩ := hedited
    rfl
  · next hnone =>
    intro note hnote
    rw [hnote] at hnone
    exact absurd rfl hnone

theorem isInStep_addNote (keyboard : Keyboard) (letter : PitchLetter) :
    (keyboard.addNote letter).IsInStep := by
  intro note hnote
  have hlast : note = ⟨letter, keyboard.octave, keyboard.duration, keyboard.dotted, none⟩ := by
    simpa [selectedNote, addNote, eq_comm] using hnote
  rw [hlast]
  rfl

theorem IsInStep.withLetter (h : keyboard.IsInStep) (letter : PitchLetter) (octave : Octave)
    (passes : Prop) [Decidable passes] :
    (if passes then (keyboard.withSelected ({ · with letter })).setOctave octave
      else keyboard.withSelected ({ · with letter })).IsInStep := by
  split
  · exact isInStep_setOctave _ octave
  · exact h.withSelected fun _ => rfl

theorem IsInStep.moveUp (h : keyboard.IsInStep) : keyboard.moveUp.IsInStep := by
  unfold Keyboard.moveUp
  split
  · exact h
  · exact h.withLetter _ _ _

theorem IsInStep.moveDown (h : keyboard.IsInStep) : keyboard.moveDown.IsInStep := by
  unfold Keyboard.moveDown
  split
  · exact h
  · exact h.withLetter _ _ _

/-- The octaves stay the same until another note may be selected. -/
theorem IsInStep.press (h : keyboard.IsInStep) (hkey : key ∉ [.delete, .next, .previous])
    (hpress : keyboard.press key = .ok next) : next.IsInStep := by
  cases key with
  | note text =>
    rw [Keyboard.press] at hpress
    split at hpress
    · cases hpress
      exact isInStep_addNote keyboard _
    · cases hpress
  | duration duration =>
    simp only [Keyboard.press, setDuration] at hpress
    split at hpress
    · cases hpress
      exact h
    · cases hpress
  | dotted => cases hpress; exact h
  | octaveUp => cases hpress; exact isInStep_setOctave keyboard _
  | octaveDown => cases hpress; exact isInStep_setOctave keyboard _
  | up => cases hpress; exact h.moveUp
  | down => cases hpress; exact h.moveDown
  | sharp => cases hpress; exact h.withSelected fun _ => rfl
  | flat => cases hpress; exact h.withSelected fun _ => rfl
  | delete | next | previous => simp at hkey

theorem IsInStep.after (h : keyboard.IsInStep) {keys : List Key}
    (hkeys : ∀ key ∈ keys, key ∉ [.delete, .next, .previous]) : (keyboard.after keys).IsInStep := by
  induction keys generalizing keyboard with
  | nil => exact h
  | cons key keys ih =>
    rw [List.forall_mem_cons] at hkeys
    have hrespond : (respond key keyboard).2.IsInStep := by
      cases hpress : keyboard.press key with
      | ok next =>
        rw [respond_of_ok hpress]
        exact h.press hkeys.1 hpress
      | error cause => rwa [respond_of_error hpress]
    exact ih hrespond hkeys.2

/-- The octaves are the same from the time a note is entered. -/
theorem isInStep_after_note {text : List Char} {letter : PitchLetter} {edits : List Key}
    (hletter : PitchLetter.ofText? text = some letter)
    (hedits : ∀ key ∈ edits, key ∉ [.delete, .next, .previous]) :
    (keyboard.after (.note text :: edits)).IsInStep := by
  have hpress : keyboard.press (.note text) = .ok (keyboard.addNote letter) := by
    rw [press, hletter]
  have hadd : (respond (.note text) keyboard).2 = keyboard.addNote letter := by
    rw [respond_of_ok hpress]
  have hafter := (isInStep_addNote keyboard letter).after hedits
  rw [← hadd] at hafter
  exact hafter

end InStep

/-- Each of the four keys moves the selected note alone. It moves it as far as it should if the note
keeps its octave; otherwise it moves it as many octaves too far as the octave of new notes is above
that of the note, so as far as it should just if they are the same. They are the same from the time
a note is entered until another note may be selected, whatever keys have been pressed before. -/
theorem heights_of_edits (keyboard : Keyboard) :
    (∀ key interval index note, key.interval? = some interval →
      keyboard.selected = some index → keyboard.notes[index]? = some note →
      -128 ≤ keyboard.octave.number + key.octaves note.letter →
      keyboard.octave.number + key.octaves note.letter ≤ 127 →
      ∃ next moved, keyboard.press key = .ok next ∧
        next.notes = keyboard.notes.set index moved ∧ next.selected = keyboard.selected ∧
        moved.height = note.height + interval +
          (if key.octaves note.letter = 0 then 0
            else 7 * (keyboard.octave.number - note.octave.number)) ∧
        (moved.height = note.height + interval ↔
          key.octaves note.letter = 0 ∨ keyboard.octave = note.octave)) ∧
    ∀ text letter edits, PitchLetter.ofText? text = some letter →
      (∀ key ∈ edits, key ∉ [.delete, .next, .previous]) →
      (keyboard.after (.note text :: edits)).IsInStep := by
  refine ⟨fun key interval index note hinterval hselected hnote hlow hhigh => ?_,
    fun _ _ _ => isInStep_after_note⟩
  have hheight := height_move hinterval hlow hhigh
  refine ⟨_, _, press_of_interval hinterval hselected hnote, rfl, rfl, hheight, ?_⟩
  rw [hheight]
  split
  · next hzero => simp [hzero]
  · next hzero =>
    rw [← Octave.number_inj]
    omega

/-- A c with a d after it that has been moved up an octave, where the c is selected again. -/
def raised : Keyboard :=
  start.after [.note ['c'], .note ['d'], .octaveUp, .previous]

/-- Moving the c up an octave moves it up two. -/
theorem heights_of_edits_raised :
    raised.IsReached ∧ ∃ next moved, raised.press .octaveUp = .ok next ∧
      next.notes = raised.notes.set 0 moved ∧
      moved.height = (EnteredNote.mk .c (.clamp 4) 4 false none).height + 14 := by
  obtain ⟨hmoves, -⟩ := heights_of_edits raised
  obtain ⟨next, moved, hpress, hnotes, -, hheight, -⟩ :=
    hmoves .octaveUp 7 0 ⟨.c, .clamp 4, 4, false, none⟩ rfl rfl rfl (by decide) (by decide)
  exact ⟨⟨_, rfl⟩, next, moved, hpress, hnotes, hheight⟩

end Keyboard

end MotifSearch
