import MotifSearch.Keyboard.Basic

/-!
# Keyboards that are reached

Whatever keys have been pressed, a note is selected as soon as there are any, and only durations and
accidentals that have a key are found. One key enters a note, one deletes the selected note, and all
others leave every note but the selected one alone. A key that fails changes nothing.

Pressing a key is taken as a program here, which looks up and changes the keyboard step by step, so
that it can be said of a keyboard what a key that fails leaves of it.

## Main definitions

* `Keyboard.respond`, `Keyboard.after` — what comes of a key, and of several ones
* `Keyboard.IsReached` — there are keys that lead to a keyboard
* `Keyboard.IsRegular` — what there is to know about such a keyboard
* `Key.Changes` — what a key does to the notes

## Main results

* `Keyboard.IsRegular.press`, `Keyboard.IsReached.isRegular` — every key keeps a keyboard regular
* `Keyboard.changes_of_press` — every key does to the notes what it is for
* `Keyboard.notes_after_deletions` — as many deletions as there are notes delete all of them
* `Keyboard.reached_by_keys` — all of this for the keyboards that are reached
-/

namespace MotifSearch

/-- A note with a duration and an accidental that have a key. -/
structure EnteredNote.IsRegular (note : EnteredNote) : Prop where
  duration : note.duration ∈ Keyboard.durations
  accidental : note.accidental ∈ [none, some .sharp, some .flat]

/-- What a key does to the notes where it succeeds. -/
def Key.Changes (key : Key) (keyboard next : Keyboard) : Prop :=
  match key with
  | .note text =>
    ∃ letter, PitchLetter.ofText? text = some letter ∧
      next.notes = keyboard.notes ++
        [⟨letter, keyboard.octave, keyboard.duration, keyboard.dotted, none⟩] ∧
      next.selected = some keyboard.notes.length
  | .delete =>
    match keyboard.selected with
    | none => next.notes = keyboard.notes
    | some index => ∃ first note rest, keyboard.notes = first ++ note :: rest ∧
        first.length = index ∧ next.notes = first ++ rest
  | _ =>
    next.notes.length = keyboard.notes.length ∧
      ∀ index, keyboard.selected ≠ some index → next.notes[index]? = keyboard.notes[index]?

namespace Keyboard

/-- Pressing a key. The keyboard is changed last, once it is known that the key succeeds. -/
def pressing (key : Key) : StateM Keyboard (Except KeyError Unit) := do
  let keyboard ← MonadState.get
  match keyboard.press key with
  | .error cause => return .error cause
  | .ok next =>
    set next
    return .ok ()

/-- The answer to a key, and the keyboard after it. -/
def respond (key : Key) (keyboard : Keyboard) : Except KeyError Unit × Keyboard :=
  ((pressing key).run keyboard).run

/-- The keyboard after some keys. -/
def after (keyboard : Keyboard) (keys : List Key) : Keyboard :=
  keys.foldl (fun keyboard key => (respond key keyboard).2) keyboard

/-- There are keys that lead to a keyboard. -/
def IsReached (keyboard : Keyboard) : Prop :=
  ∃ keys, start.after keys = keyboard

/-- There is a selected note as soon as there are notes, and everything that has been set has a
key. -/
structure IsRegular (keyboard : Keyboard) : Prop where
  selected_eq_none_iff : keyboard.selected = none ↔ keyboard.notes = []
  selected_lt : ∀ index, keyboard.selected = some index → index < keyboard.notes.length
  duration : keyboard.duration ∈ durations
  notes : ∀ note ∈ keyboard.notes, note.IsRegular

variable {keyboard next last : Keyboard} {key : Key} {edit : EnteredNote → EnteredNote}

section Respond

variable {cause : KeyError}

theorem respond_of_ok (h : keyboard.press key = .ok next) :
    respond key keyboard = (.ok (), next) := by
  simp [respond, pressing, h]

theorem respond_of_error (h : keyboard.press key = .error cause) :
    respond key keyboard = (.error cause, keyboard) := by
  simp [respond, pressing, h]

end Respond

section WithSelected

@[simp] theorem selected_withSelected :
    (keyboard.withSelected edit).selected = keyboard.selected := by
  unfold withSelected
  split <;> simp [*]

@[simp] theorem duration_withSelected :
    (keyboard.withSelected edit).duration = keyboard.duration := by
  unfold withSelected
  split <;> rfl

@[simp] theorem octave_withSelected :
    (keyboard.withSelected edit).octave = keyboard.octave := by
  unfold withSelected
  split <;> rfl

theorem notes_withSelected {index : Nat} (h : keyboard.selected = some index) :
    (keyboard.withSelected edit).notes = keyboard.notes.modify index edit := by
  rw [withSelected, h]

/-- Notes that are not selected are not edited. -/
theorem getElem?_notes_withSelected {index : Nat} (h : keyboard.selected ≠ some index) :
    (keyboard.withSelected edit).notes[index]? = keyboard.notes[index]? := by
  cases hselected : keyboard.selected with
  | none => rw [withSelected, hselected]
  | some selected =>
    have hne : selected ≠ index := fun heq => h (by rw [hselected, heq])
    rw [notes_withSelected hselected, List.getElem?_modify_ne _ _ hne]

/-- An edit that keeps notes regular keeps the keyboard regular. -/
theorem IsRegular.withSelected (h : keyboard.IsRegular)
    (hedit : ∀ note : EnteredNote, note.IsRegular → (edit note).IsRegular) :
    (keyboard.withSelected edit).IsRegular := by
  cases hselected : keyboard.selected with
  | none => rwa [Keyboard.withSelected, hselected]
  | some index =>
    obtain ⟨first, note, rest, hsplit, -, hmodify⟩ :=
      List.exists_of_modify edit (h.selected_lt index hselected)
    have hnotes := h.notes
    rw [hsplit, List.forall_mem_append, List.forall_mem_cons] at hnotes
    obtain ⟨hfirst, hnote, hrest⟩ := hnotes
    refine ⟨?_, fun other hother => ?_, ?_, ?_⟩
    · rw [selected_withSelected, h.selected_eq_none_iff, ← List.length_eq_zero_iff,
        ← List.length_eq_zero_iff, length_notes_withSelected]
    · rw [selected_withSelected] at hother
      rw [length_notes_withSelected]
      exact h.selected_lt other hother
    · rw [duration_withSelected]
      exact h.duration
    · rw [notes_withSelected hselected, hmodify, List.forall_mem_append, List.forall_mem_cons]
      exact ⟨hfirst, hedit note hnote, hrest⟩

end WithSelected

/-- What the keys do that neither enter nor delete a note: all notes stay, and those that are not
selected stay as they are. -/
structure Adjusts (keyboard next : Keyboard) : Prop where
  length : next.notes.length = keyboard.notes.length
  others : ∀ index, keyboard.selected ≠ some index → next.notes[index]? = keyboard.notes[index]?
  regular : keyboard.IsRegular → next.IsRegular

namespace Adjusts

theorem refl (keyboard : Keyboard) : keyboard.Adjusts keyboard :=
  ⟨rfl, fun _ _ => rfl, id⟩

/-- One adjustment after another that selects the same note. -/
theorem trans (h : keyboard.Adjusts next) (hlast : next.Adjusts last)
    (hselected : next.selected = keyboard.selected) : keyboard.Adjusts last where
  length := hlast.length.trans h.length
  others index hindex :=
    (hlast.others index (by rwa [hselected])).trans (h.others index hindex)
  regular := hlast.regular ∘ h.regular

/-- The notes stay as they are if only something is set or another one is selected. -/
theorem of_notes_eq (hnotes : next.notes = keyboard.notes)
    (hduration : keyboard.duration ∈ durations → next.duration ∈ durations)
    (hnone : next.selected = none ↔ keyboard.selected = none)
    (hlt : (∀ index, keyboard.selected = some index → index < keyboard.notes.length) →
      ∀ index, next.selected = some index → index < keyboard.notes.length) :
    keyboard.Adjusts next where
  length := by rw [hnotes]
  others _ _ := by rw [hnotes]
  regular h :=
    { selected_eq_none_iff := by rw [hnone, hnotes, h.selected_eq_none_iff]
      selected_lt := by
        rw [hnotes]
        exact hlt h.selected_lt
      duration := hduration h.duration
      notes := by
        rw [hnotes]
        exact h.notes }

theorem withSelected (hedit : ∀ note : EnteredNote, note.IsRegular → (edit note).IsRegular) :
    keyboard.Adjusts (keyboard.withSelected edit) where
  length := length_notes_withSelected keyboard edit
  others _ := getElem?_notes_withSelected
  regular h := h.withSelected hedit

theorem setDuration {duration : UInt32} (h : keyboard.setDuration duration = .ok next) :
    keyboard.Adjusts next := by
  rw [Keyboard.setDuration] at h
  split at h
  · next hmem =>
    cases h
    exact of_notes_eq rfl (fun _ => hmem) .rfl id
  · cases h

theorem toggleDotted (keyboard : Keyboard) : keyboard.Adjusts keyboard.toggleDotted :=
  of_notes_eq rfl id .rfl id

theorem selectNext (keyboard : Keyboard) : keyboard.Adjusts keyboard.selectNext := by
  unfold Keyboard.selectNext
  split
  · next index hselected =>
    split
    · next hlt =>
      refine of_notes_eq rfl id (by simp [hselected]) fun _ other hother => ?_
      cases hother
      exact hlt
    · exact refl keyboard
  · exact refl keyboard

theorem selectPrevious (keyboard : Keyboard) : keyboard.Adjusts keyboard.selectPrevious := by
  unfold Keyboard.selectPrevious
  split
  · next before hselected =>
    refine of_notes_eq rfl id (by simp [hselected]) fun hlt other hother => ?_
    cases hother
    exact Nat.lt_of_succ_lt (hlt _ hselected)
  · exact refl keyboard

theorem setOctave (keyboard : Keyboard) (octave : Octave) :
    keyboard.Adjusts (keyboard.setOctave octave) := by
  unfold Keyboard.setOctave
  split
  · have hedit : keyboard.Adjusts (keyboard.withSelected ({ · with octave })) :=
      withSelected fun _ h => ⟨h.duration, h.accidental⟩
    exact hedit.trans (of_notes_eq rfl id .rfl id) selected_withSelected
  · exact refl keyboard

/-- Another letter for the selected note, and another octave where the letter passes into one. -/
theorem withLetter (keyboard : Keyboard) (letter : PitchLetter) (octave : Octave) (passes : Prop)
    [Decidable passes] :
    keyboard.Adjusts (if passes then (keyboard.withSelected ({ · with letter })).setOctave octave
      else keyboard.withSelected ({ · with letter })) := by
  have hletter : keyboard.Adjusts (keyboard.withSelected ({ · with letter })) :=
    withSelected fun _ h => ⟨h.duration, h.accidental⟩
  split
  · exact hletter.trans (setOctave _ octave) selected_withSelected
  · exact hletter

theorem moveUp (keyboard : Keyboard) : keyboard.Adjusts keyboard.moveUp := by
  unfold Keyboard.moveUp
  split
  · exact refl keyboard
  · exact withLetter keyboard _ _ _

theorem moveDown (keyboard : Keyboard) : keyboard.Adjusts keyboard.moveDown := by
  unfold Keyboard.moveDown
  split
  · exact refl keyboard
  · exact withLetter keyboard _ _ _

theorem toggleAccidental (keyboard : Keyboard) {accidental : Accidental}
    (h : accidental = .sharp ∨ accidental = .flat) :
    keyboard.Adjusts (keyboard.toggleAccidental accidental) := by
  refine withSelected fun note hnote => ⟨hnote.duration, ?_⟩
  dsimp only
  split
  · exact List.mem_cons_self
  · rcases h with rfl | rfl <;> decide

end Adjusts

/-- What the keys do: one enters a note, one deletes a note, and all others adjust something. -/
theorem press_cases (h : keyboard.press key = .ok next) :
    (∃ text letter, key = .note text ∧ PitchLetter.ofText? text = some letter ∧
      next = keyboard.addNote letter) ∨
    (key = .delete ∧ next = keyboard.delete) ∨
    ((∀ text, key ≠ .note text) ∧ key ≠ .delete ∧ keyboard.Adjusts next) := by
  cases key with
  | note text =>
    rw [press] at h
    split at h
    · next letter hletter =>
      cases h
      exact .inl ⟨text, letter, rfl, hletter, rfl⟩
    · cases h
  | delete =>
    cases h
    exact .inr (.inl ⟨rfl, rfl⟩)
  | duration duration => exact .inr (.inr ⟨nofun, nofun, .setDuration h⟩)
  | dotted => cases h; exact .inr (.inr ⟨nofun, nofun, .toggleDotted keyboard⟩)
  | next => cases h; exact .inr (.inr ⟨nofun, nofun, .selectNext keyboard⟩)
  | previous => cases h; exact .inr (.inr ⟨nofun, nofun, .selectPrevious keyboard⟩)
  | octaveUp => cases h; exact .inr (.inr ⟨nofun, nofun, .setOctave keyboard _⟩)
  | octaveDown => cases h; exact .inr (.inr ⟨nofun, nofun, .setOctave keyboard _⟩)
  | up => cases h; exact .inr (.inr ⟨nofun, nofun, .moveUp keyboard⟩)
  | down => cases h; exact .inr (.inr ⟨nofun, nofun, .moveDown keyboard⟩)
  | sharp => cases h; exact .inr (.inr ⟨nofun, nofun, .toggleAccidental keyboard (.inl rfl)⟩)
  | flat => cases h; exact .inr (.inr ⟨nofun, nofun, .toggleAccidental keyboard (.inr rfl)⟩)

/-- The keys that fail. -/
theorem press_eq_error_iff : (∃ cause, keyboard.press key = .error cause) ↔
    (∃ text, key = .note text ∧ PitchLetter.ofText? text = none) ∨
    (∃ duration, key = .duration duration ∧ duration ∉ durations) := by
  cases key with
  | note text => cases hletter : PitchLetter.ofText? text <;> simp [press, hletter]
  | duration duration => by_cases hmem : duration ∈ durations <;> simp [press, setDuration, hmem]
  | _ => simp [press]

section Delete

/-- The selected note stands at the end of the notes before it. -/
theorem IsRegular.exists_split (h : keyboard.IsRegular) {index : Nat}
    (hselected : keyboard.selected = some index) :
    ∃ first note rest, keyboard.notes = first ++ note :: rest ∧ first.length = index := by
  obtain ⟨first, note, rest, hsplit, hlength, -⟩ :=
    List.exists_of_modify id (h.selected_lt index hselected)
  exact ⟨first, note, rest, hsplit, hlength⟩

section Split

variable {first rest : List EnteredNote} {note : EnteredNote}

theorem notes_delete_of_split (hnotes : keyboard.notes = first ++ note :: rest)
    (hselected : keyboard.selected = some first.length) :
    keyboard.delete.notes = first ++ rest := by
  simp [delete, hselected, hnotes, List.eraseIdx_append_of_length_le]

/-- The note before the deleted one is selected, or else the first one that is left. -/
theorem selected_delete_of_split (hnotes : keyboard.notes = first ++ note :: rest)
    (hselected : keyboard.selected = some first.length) :
    keyboard.delete.selected =
      if first ++ rest = [] then none else some (first.length - 1) := by
  cases first with
  | nil => cases rest <;> simp [delete, hselected, hnotes]
  | cons head tail => simp [delete, hselected]

end Split

theorem delete_of_selected_eq_none (h : keyboard.selected = none) : keyboard.delete = keyboard := by
  rw [delete, h]

theorem duration_delete : keyboard.delete.duration = keyboard.duration := by
  unfold delete
  split <;> rfl

/-- There is a selected note after a deletion as well, unless no note is left. -/
theorem IsRegular.delete (h : keyboard.IsRegular) : keyboard.delete.IsRegular := by
  cases hselected : keyboard.selected with
  | none => rwa [delete_of_selected_eq_none hselected]
  | some index =>
    obtain ⟨first, note, rest, hnotes, rfl⟩ := h.exists_split hselected
    have hleft := notes_delete_of_split hnotes hselected
    have hnext := selected_delete_of_split hnotes hselected
    have hregular := h.notes
    rw [hnotes, List.forall_mem_append, List.forall_mem_cons] at hregular
    refine ⟨?_, fun index hindex => ?_, ?_, ?_⟩
    · rw [hnext, hleft]
      split <;> simp [*]
    -- The index is that of the note before the deleted one, or 0 with a note left at it.
    · rw [hnext] at hindex
      rw [hleft]
      split at hindex
      · cases hindex
      · next hne =>
        cases hindex
        have hpos := List.length_pos_iff.mpr hne
        rw [List.length_append] at hpos ⊢
        omega
    · rw [duration_delete]
      exact h.duration
    · rw [hleft, List.forall_mem_append]
      exact ⟨hregular.1, hregular.2.2⟩

/-- A deletion takes one note away. -/
theorem IsRegular.length_delete (h : keyboard.IsRegular) :
    keyboard.delete.notes.length = keyboard.notes.length - 1 := by
  cases hselected : keyboard.selected with
  | none => rw [delete_of_selected_eq_none hselected, h.selected_eq_none_iff.mp hselected]; rfl
  | some index =>
    obtain ⟨first, note, rest, hnotes, rfl⟩ := h.exists_split hselected
    rw [notes_delete_of_split hnotes hselected, hnotes]
    simp

end Delete

/-- An entered note has the duration that is set, and is selected. -/
theorem IsRegular.addNote (h : keyboard.IsRegular) (letter : PitchLetter) :
    (keyboard.addNote letter).IsRegular where
  selected_eq_none_iff := by simp [Keyboard.addNote]
  selected_lt index hindex := by
    cases hindex
    simp [Keyboard.addNote]
  duration := h.duration
  notes := by
    rw [Keyboard.addNote, List.forall_mem_append, List.forall_mem_singleton]
    exact ⟨h.notes, h.duration, List.mem_cons_self⟩

/-- Every key keeps a keyboard regular. -/
theorem IsRegular.press (h : keyboard.IsRegular) (hpress : keyboard.press key = .ok next) :
    next.IsRegular := by
  rcases press_cases hpress with ⟨text, letter, -, -, rfl⟩ | ⟨-, rfl⟩ | ⟨-, -, hadjusts⟩
  · exact h.addNote letter
  · exact h.delete
  · exact hadjusts.regular h

theorem IsRegular.respond (h : keyboard.IsRegular) (key : Key) :
    (respond key keyboard).2.IsRegular := by
  cases hpress : keyboard.press key with
  | ok next =>
    rw [respond_of_ok hpress]
    exact h.press hpress
  | error cause => rwa [respond_of_error hpress]

theorem IsRegular.after (h : keyboard.IsRegular) (keys : List Key) :
    (keyboard.after keys).IsRegular := by
  induction keys generalizing keyboard with
  | nil => exact h
  | cons key keys ih => exact ih (h.respond key)

theorem isRegular_start : start.IsRegular where
  selected_eq_none_iff := by simp [start]
  selected_lt := by simp [start]
  duration := by decide
  notes := by simp [start]

/-- All keyboards that are reached are regular. -/
theorem IsReached.isRegular (h : keyboard.IsReached) : keyboard.IsRegular := by
  obtain ⟨keys, rfl⟩ := h
  exact isRegular_start.after keys

/-- Every key that succeeds does to the notes of a regular keyboard what it is for. -/
theorem changes_of_press (h : keyboard.IsRegular) (hpress : keyboard.press key = .ok next) :
    key.Changes keyboard next := by
  rcases press_cases hpress with ⟨text, letter, rfl, hletter, rfl⟩ | ⟨rfl, rfl⟩ |
    ⟨hnote, hdelete, hadjusts⟩
  · exact ⟨letter, hletter, rfl, rfl⟩
  · cases hselected : keyboard.selected with
    | none =>
      simp only [Key.Changes, hselected]
      rw [delete_of_selected_eq_none hselected]
    | some index =>
      obtain ⟨first, note, rest, hnotes, rfl⟩ := h.exists_split hselected
      simp only [Key.Changes, hselected]
      exact ⟨first, note, rest, hnotes, rfl, notes_delete_of_split hnotes hselected⟩
  · cases key with
    | note text => exact absurd rfl (hnote text)
    | delete => exact absurd rfl hdelete
    | _ => exact ⟨hadjusts.length, hadjusts.others⟩

/-- As many deletions as there are notes delete all of them. -/
theorem notes_after_deletions (h : keyboard.IsRegular) :
    (keyboard.after (List.replicate keyboard.notes.length .delete)).notes = [] := by
  -- The induction is on the number of notes: each deletion takes one note away and leaves the
  -- keyboard regular.
  induction hlength : keyboard.notes.length generalizing keyboard with
  | zero => exact List.eq_nil_of_length_eq_zero hlength
  | succ n ih =>
    have hleft : keyboard.delete.notes.length = n := by
      rw [h.length_delete, hlength, Nat.add_sub_cancel]
    exact ih h.delete hleft

/-- Whatever keys have been pressed: there is a selected note as soon as there are any, and only
durations and accidentals that have a key are found. Every key then does to the notes what it is
for; it fails only if it names no letter or a duration without a key, and leaves the keyboard as it
is then. As many deletions as there are notes delete all of them. -/
theorem reached_by_keys (h : keyboard.IsReached) :
    keyboard.IsRegular ∧
    (∀ key next, keyboard.press key = .ok next →
      respond key keyboard = (.ok (), next) ∧ key.Changes keyboard next) ∧
    (∀ key cause, keyboard.press key = .error cause →
      respond key keyboard = (.error cause, keyboard)) ∧
    (∀ key, (∃ cause, keyboard.press key = .error cause) ↔
      (∃ text, key = .note text ∧ PitchLetter.ofText? text = none) ∨
      (∃ duration, key = .duration duration ∧ duration ∉ durations)) ∧
    (keyboard.after (List.replicate keyboard.notes.length .delete)).notes = [] :=
  ⟨h.isRegular, fun _ _ hpress => ⟨respond_of_ok hpress, changes_of_press h.isRegular hpress⟩,
    fun _ _ => respond_of_error, fun _ => press_eq_error_iff, notes_after_deletions h.isRegular⟩

/-- Three notes, of which the second one is selected and has a sharp. -/
def melody : Keyboard :=
  start.after [.note ['c'], .note ['D'], .note ['e'], .previous, .sharp]

/-- A deletion leaves the first and the third note, a duration without a key is not set, and three
deletions delete everything. -/
theorem reached_by_keys_melody :
    melody.IsReached ∧ Key.delete.Changes melody (respond .delete melody).2 ∧
    (respond .delete melody).2.notes.map (·.letter) = [.c, .e] ∧
    respond (.duration 3) melody = (.error (.unsupportedDuration 3), melody) ∧
    (melody.after [.delete, .delete, .delete]).notes = [] := by
  have hreached : melody.IsReached := ⟨_, rfl⟩
  obtain ⟨-, hok, herror, -, hempty⟩ := reached_by_keys hreached
  obtain ⟨hdelete, hchanges⟩ := hok .delete _ rfl
  rw [hdelete]
  exact ⟨hreached, hchanges, by decide, herror (.duration 3) _ rfl, hempty⟩

end Keyboard

end MotifSearch
