import MotifSearch.Corpus.Saved
import MotifSearch.Keyboard.Saved
import MotifSearch.Proofs.Corpus.Ids
import MotifSearch.Proofs.Json.RoundTrip
import MotifSearch.Proofs.Keyboard.Reached

/-!
# Sessions that are saved and resumed

A corpus and a keyboard can be saved as a text and loaded again later. What is loaded is what was
saved, whatever characters there are in the texts; so it makes no difference to the answers, the
states and the markup of a session how often it is saved and resumed, and where.

A keyboard can be saved as long as there is an index for the note that is selected.

## Main definitions

* `Session` — what is worked on by operations, and saved and loaded
* `Session.results`, `Session.run` — what comes of operations alone, and with reloads among them
* `Corpus.session`, `Keyboard.session` — sessions with a corpus and with a keyboard
* `Keyboard.HasRoom` — there is an index for every note after some more keys

## Main results

* `Session.Keeps.run_eq` — reloads change nothing where everything that is saved is read back
* `Corpus.load_save`, `Keyboard.load_save` — what is saved is read back
* `Keyboard.HasRoom.respond` — every key takes the room of one note at most
* `sessions_resumed` — sessions with corpora and keyboards can be resumed anywhere
-/

namespace MotifSearch

/-- What is worked on by operations that answer and change a state, and saved and loaded. -/
structure Session (State Operation Answer : Type) where
  respond : Operation → State → Answer × State
  save : State → List Char
  load : List Char → Except JsonError State

namespace Session

/-- A step of a session. -/
inductive Step (Operation : Type) where
  | operation (operation : Operation)
  /-- Save the state, and go on with what is loaded from the text. -/
  | reload

/-- The operations among some steps. -/
def operations {Operation : Type} : List (Step Operation) → List Operation
  | [] => []
  | .operation operation :: steps => operation :: operations steps
  | .reload :: steps => operations steps

variable {State Operation Answer : Type} {session : Session State Operation Answer}

/-- What comes of some operations: each answer, with the state after it. -/
def results (session : Session State Operation Answer) :
    State → List Operation → List (Answer × State)
  | _, [] => []
  | state, operation :: operations =>
    let result := session.respond operation state
    result :: results session result.2 operations

/-- What comes of some steps, unless something cannot be loaded. -/
def run (session : Session State Operation Answer) :
    State → List (Step Operation) → Except JsonError (List (Answer × State))
  | _, [] => .ok []
  | state, .operation operation :: steps => do
    let result := session.respond operation state
    let results ← run session result.2 steps
    .ok (result :: results)
  | state, .reload :: steps => do
    let loaded ← session.load (session.save state)
    run session loaded steps

/-- Without reloads nothing has to be loaded. -/
theorem run_map_operation (state : State) (operations : List Operation) :
    session.run state (operations.map .operation) = .ok (session.results state operations) := by
  induction operations generalizing state with
  | nil => rfl
  | cons operation operations ih =>
    rw [List.map_cons, run, ih]
    rfl

theorem run_reload_cons {state : State} (h : session.load (session.save state) = .ok state)
    (steps : List (Step Operation)) :
    session.run state (.reload :: steps) = session.run state steps := by
  rw [run, h]
  rfl

/-- States from which a number of operations is to come are read back, and so are those that the
operations lead to. -/
structure Keeps (session : Session State Operation Answer) (HasRoom : Nat → State → Prop) :
    Prop where
  load_save : ∀ {count state}, HasRoom count state → session.load (session.save state) = .ok state
  respond : ∀ {count state} operation, HasRoom (count + 1) state →
    HasRoom count (session.respond operation state).2

/-- Reloads change nothing, wherever they are. -/
theorem Keeps.run_eq {HasRoom : Nat → State → Prop} (h : session.Keeps HasRoom) {state : State}
    {steps : List (Step Operation)} (hroom : HasRoom (operations steps).length state) :
    session.run state steps = .ok (session.results state (operations steps)) := by
  -- An operation takes the room that has been counted for it, and a reload takes none.
  induction steps generalizing state with
  | nil => rfl
  | cons step steps ih =>
    cases step with
    | operation operation =>
      rw [run, ih (h.respond operation hroom)]
      rfl
    | reload =>
      rw [run_reload_cons (h.load_save hroom)]
      exact ih hroom

end Session

theorem Score.isPlain_toJson (score : Score) : score.toJson.IsPlain := by
  refine .record ?_
  simp only [List.forall_mem_cons]
  exact ⟨.nat _, .text _, .text _, nofun⟩

theorem EnteredNote.isPlain_toJson (note : EnteredNote) : note.toJson.IsPlain := by
  refine .record ?_
  simp only [List.forall_mem_cons]
  exact ⟨.word _, .integer _, .nat _, .bool _, .option fun _ => .word _, nofun⟩

namespace Corpus

/-- What can be asked of a corpus. -/
inductive Operation where
  | add (title kern : List Char)
  | get (id : UInt32)
  | search (expression : List Char) (mode : ScanMode)

/-- What a corpus answers. -/
inductive Answer where
  | id (id : Option UInt32)
  | score (score : Option Score)
  | hits (hits : Except SearchError (List Hit))

/-- A session with a corpus. Only additions change it. -/
def session : Session Corpus Operation Answer where
  respond
    | .add title kern, corpus =>
      let (id, added) := respond title kern corpus
      (.id id, added)
    | .get id, corpus => (.score (corpus.get id), corpus)
    | .search expression mode, corpus => (.hits (corpus.search expression mode), corpus)
  save := save
  load := load

theorem isPlain_toJson (corpus : Corpus) : corpus.toJson.IsPlain :=
  .list fun score _ => score.isPlain_toJson

/-- A saved corpus is read back. -/
theorem load_save (corpus : Corpus) : load corpus.save = .ok corpus := by
  rw [load, save, Json.parse_render corpus.isPlain_toJson]
  exact corpus.ofJson_toJson

theorem keeps_session : session.Keeps fun _ _ => True where
  load_save _ := load_save _
  respond _ _ := trivial

end Corpus

namespace Keyboard

/-- A session with a keyboard. The markup is part of every answer. -/
def session : Session Keyboard Key (Except KeyError Unit × List Char) where
  respond key keyboard :=
    let (answer, next) := respond key keyboard
    ((answer, next.mei), next)
  save := save
  load := load

theorem isPlain_toJson (keyboard : Keyboard) : keyboard.toJson.IsPlain := by
  refine .record ?_
  simp only [List.forall_mem_cons]
  exact ⟨.nat _, .bool _, .integer _, .list fun note _ => note.isPlain_toJson, .option .nat,
    nofun⟩

/-- A saved keyboard is read back if there is an index for the selected note. -/
theorem load_save {keyboard : Keyboard}
    (h : ∀ index, keyboard.selected = some index → index ≤ maxIndex) :
    load keyboard.save = .ok keyboard := by
  rw [load, save, Json.parse_render keyboard.isPlain_toJson]
  exact ofJson_toJson_of_selected_le h

/-- There is an index for the selected note, and for every note after some more keys. -/
structure HasRoom (count : Nat) (keyboard : Keyboard) : Prop where
  selected : ∀ index, keyboard.selected = some index → index ≤ maxIndex
  notes : keyboard.notes.length + count ≤ maxIndex + 1

variable {keyboard next : Keyboard} {key : Key} {index count : Nat}

theorem selected_setOctave (octave : Octave) :
    (keyboard.setOctave octave).selected = keyboard.selected := by
  unfold setOctave
  split
  · exact selected_withSelected
  · rfl

/-- Another letter for the selected note, and another octave where the letter passes into one. -/
theorem selected_withLetter (letter : PitchLetter) (octave : Octave) (passes : Prop)
    [Decidable passes] :
    (if passes then (keyboard.withSelected ({ · with letter })).setOctave octave
      else keyboard.withSelected ({ · with letter })).selected = keyboard.selected := by
  split
  · rw [selected_setOctave, selected_withSelected]
  · exact selected_withSelected

theorem selected_moveUp : keyboard.moveUp.selected = keyboard.selected := by
  unfold moveUp
  split
  · rfl
  · exact selected_withLetter _ _ _

theorem selected_moveDown : keyboard.moveDown.selected = keyboard.selected := by
  unfold moveDown
  split
  · rfl
  · exact selected_withLetter _ _ _

theorem selected_selectPrevious :
    keyboard.selectPrevious.selected = keyboard.selected.map Nat.pred := by
  unfold selectPrevious
  split
  · next before hselected => rw [hselected]; rfl
  · next hother =>
    cases hselected : keyboard.selected with
    | none => rfl
    | some index =>
      cases index with
      | zero => rfl
      | succ before => exact absurd hselected (hother before)

theorem selected_delete_cases :
    keyboard.delete.selected = none ∨
      keyboard.delete.selected = keyboard.selected.map Nat.pred := by
  cases hselected : keyboard.selected with
  | none => exact .inl (by rw [delete_of_selected_eq_none hselected, hselected])
  | some index =>
    cases index with
    | zero =>
      simp only [delete, hselected]
      split
      · exact .inl rfl
      · exact .inr rfl
    | succ before => exact .inr (by simp [delete, hselected])

theorem selected_selectNext_cases :
    keyboard.selectNext.selected = keyboard.selected ∨
      ∃ index < keyboard.notes.length, keyboard.selectNext.selected = some index := by
  unfold selectNext
  split
  · next index _ =>
    split
    · next hlt => exact .inr ⟨index + 1, hlt, rfl⟩
    · exact .inl rfl
  · exact .inl rfl

/-- A key selects nothing that is farther behind than the note that was selected and the end of the
notes. -/
theorem selected_le_of_press (hpress : keyboard.press key = .ok next)
    (hindex : next.selected = some index) :
    index ≤ keyboard.notes.length ∨ ∃ before, keyboard.selected = some before ∧ index ≤ before := by
  have hsame (h : next.selected = keyboard.selected) : index ≤ keyboard.notes.length ∨
      ∃ before, keyboard.selected = some before ∧ index ≤ before :=
    .inr ⟨index, h.symm.trans hindex, Nat.le_refl index⟩
  have hpred (h : next.selected = keyboard.selected.map Nat.pred) :
      index ≤ keyboard.notes.length ∨
        ∃ before, keyboard.selected = some before ∧ index ≤ before := by
    obtain ⟨before, hbefore, rfl⟩ := Option.map_eq_some_iff.mp (h.symm.trans hindex)
    exact .inr ⟨before, hbefore, Nat.pred_le before⟩
  cases key with
  | note text =>
    rw [press] at hpress
    split at hpress
    · cases hpress
      cases hindex
      exact .inl (Nat.le_refl _)
    · cases hpress
  | duration duration =>
    simp only [press, setDuration] at hpress
    split at hpress
    · cases hpress
      exact hsame rfl
    · cases hpress
  | delete =>
    cases hpress
    rcases selected_delete_cases with hnone | heq
    · rw [hnone] at hindex
      cases hindex
    · exact hpred heq
  | next =>
    cases hpress
    rcases selected_selectNext_cases with heq | ⟨other, hlt, heq⟩
    · exact hsame heq
    · cases heq.symm.trans hindex
      exact .inl (Nat.le_of_lt hlt)
  | previous => cases hpress; exact hpred selected_selectPrevious
  | dotted => cases hpress; exact hsame rfl
  | octaveUp => cases hpress; exact hsame (selected_setOctave _)
  | octaveDown => cases hpress; exact hsame (selected_setOctave _)
  | up => cases hpress; exact hsame selected_moveUp
  | down => cases hpress; exact hsame selected_moveDown
  | sharp => cases hpress; exact hsame selected_withSelected
  | flat => cases hpress; exact hsame selected_withSelected

/-- A key enters one note at most. -/
theorem length_notes_of_press (hpress : keyboard.press key = .ok next) :
    next.notes.length ≤ keyboard.notes.length + 1 := by
  rcases press_cases hpress with ⟨text, letter, -, -, rfl⟩ | ⟨-, rfl⟩ | ⟨-, -, hadjusts⟩
  · simp [addNote]
  · unfold delete
    split
    · exact Nat.le_succ _
    · exact Nat.le_succ_of_le (List.length_eraseIdx_le _ _)
  · rw [hadjusts.length]
    exact Nat.le_succ _

theorem HasRoom.press (h : keyboard.HasRoom (count + 1)) (hpress : keyboard.press key = .ok next) :
    next.HasRoom count where
  selected index hindex := by
    have hnotes := h.notes
    rcases selected_le_of_press hpress hindex with hle | ⟨before, hbefore, hle⟩
    · omega
    · exact Nat.le_trans hle (h.selected before hbefore)
  notes := by
    have hnotes := h.notes
    have hlength := length_notes_of_press hpress
    omega

/-- Every key takes the room of one note at most. -/
theorem HasRoom.respond (h : keyboard.HasRoom (count + 1)) (key : Key) :
    (respond key keyboard).2.HasRoom count := by
  cases hpress : keyboard.press key with
  | ok next =>
    rw [respond_of_ok hpress]
    exact h.press hpress
  | error cause =>
    rw [respond_of_error hpress]
    exact ⟨h.selected, Nat.le_of_succ_le h.notes⟩

theorem keeps_session : session.Keeps HasRoom where
  load_save h := load_save h.selected
  respond key h := h.respond key

end Keyboard

/-- Whatever is in a corpus, it is read back from the text that it is saved as. So is a keyboard,
whatever has been entered and set, if there is an index for the selected note. Whatever is done
after a corpus or such a keyboard has been saved and loaded therefore gives the answers, the states
and the markup that it gives without. This may be done any number of times, and anywhere among the
operations; with a keyboard, as long as there is an index for every note. -/
theorem sessions_resumed :
    (∀ corpus : Corpus,
      Corpus.load corpus.save = .ok corpus ∧
      ∀ steps, Corpus.session.run corpus steps =
        .ok (Corpus.session.results corpus (Session.operations steps))) ∧
    ∀ keyboard : Keyboard,
      (∀ index, keyboard.selected = some index → index ≤ Keyboard.maxIndex) →
      Keyboard.load keyboard.save = .ok keyboard ∧
      (∀ keys, Keyboard.session.run keyboard (.reload :: keys.map .operation) =
        .ok (Keyboard.session.results keyboard keys)) ∧
      ∀ steps, keyboard.notes.length + (Session.operations steps).length ≤ Keyboard.maxIndex + 1 →
        Keyboard.session.run keyboard steps =
          .ok (Keyboard.session.results keyboard (Session.operations steps)) := by
  refine ⟨fun corpus => ⟨corpus.load_save, fun _ => Corpus.keeps_session.run_eq trivial⟩,
    fun keyboard hselected => ⟨Keyboard.load_save hselected, fun keys => ?_,
      fun _ hnotes => Keyboard.keeps_session.run_eq ⟨hselected, hnotes⟩⟩⟩
  rw [Session.run_reload_cons (Keyboard.load_save hselected)]
  exact Session.run_map_operation keyboard keys

/-- A score with the largest id, and characters of every kind in its texts. -/
def clefs : Score where
  id := Corpus.maxId
  title := ['"', '\\', '/', '\x01', '\x7f', '𝄞']
  kern := "**kern\t**kern\r\n4c\t.\n*-\t*-\n".toList

/-- A keyboard with values at the ends of their ranges, on which nothing is selected that is
there. -/
def beyond : Keyboard where
  duration := .ofNat (UInt32.size - 1)
  dotted := true
  octave := .clamp (-128)
  notes := [⟨.b, .clamp 127, 0, false, some .quarterSharp⟩, ⟨.c, .clamp (-1), 128, true, none⟩]
  selected := some Keyboard.maxIndex

/-- Nothing is added after the largest id, the score is found by it, and an octave, a letter and a
duration are changed or not as they would be without reloads. -/
theorem sessions_resumed_beyond :
    Corpus.load (Corpus.mk [clefs]).save = .ok ⟨[clefs]⟩ ∧
    Corpus.session.run ⟨[clefs]⟩
      [.reload, .operation (.add ['a'] []), .reload, .reload, .operation (.get Corpus.maxId)] =
        .ok [(.id none, ⟨[clefs]⟩), (.score (some clefs), ⟨[clefs]⟩)] ∧
    (∀ index, beyond.selected = some index → index ≤ Keyboard.maxIndex) ∧
    beyond.notes.length + 4 ≤ Keyboard.maxIndex + 1 ∧
    Keyboard.load beyond.save = .ok beyond ∧
    Keyboard.session.run beyond [.reload, .operation .octaveUp, .reload, .operation (.duration 3),
      .operation (.note ['A']), .reload, .operation .delete] =
        .ok (Keyboard.session.results beyond [.octaveUp, .duration 3, .note ['A'], .delete]) ∧
    (Keyboard.session.results beyond [.octaveUp, .duration 3, .note ['A'], .delete]).map
      (·.2.selected) = [some Keyboard.maxIndex, some Keyboard.maxIndex, some 2, some 1] := by
  obtain ⟨hcorpus, hkeyboard⟩ := sessions_resumed
  obtain ⟨hloaded, hsession⟩ := hcorpus ⟨[clefs]⟩
  have hselected : ∀ index, beyond.selected = some index → index ≤ Keyboard.maxIndex := by
    rintro index ⟨⟩
    exact Nat.le_refl _
  obtain ⟨hkept, -, hkeys⟩ := hkeyboard beyond hselected
  have hnotes : beyond.notes.length + 4 ≤ Keyboard.maxIndex + 1 := by decide
  exact ⟨hloaded, hsession _, hselected, hnotes, hkept, hkeys _ hnotes, by decide⟩

example : (Corpus.mk [clefs]).save =
    ("[\x7b\"id\":4294967295,\"title\":\"\\\"\\\\/\\u0001\x7f𝄞\"," ++
      "\"kern_data\":\"**kern\\t**kern\\r\\n4c\\t.\\n*-\\t*-\\n\"\x7d]").toList := by
  decide +kernel

end MotifSearch
