import MotifSearch.Json.Parse
import MotifSearch.Json.Render
import MotifSearch.Keyboard.Basic
import MotifSearch.Pattern.Saved

/-!
# Saved keyboards

## Main definitions

* `EnteredNote.toJson`, `EnteredNote.ofJson` — a note
* `Keyboard.toJson`, `Keyboard.ofJson` — a keyboard
* `Keyboard.save`, `Keyboard.load` — its text

## Main results

* `ofJson_toJson_letter`, `EnteredNote.decode_encode` — a letter and a note are read back
* `ofJson_toJson_of_selected_le` — so is a keyboard whose selected index is not too large
-/

namespace MotifSearch

namespace PitchLetter

theorem ofJson_toJson_letter (letter : PitchLetter) : ofJson letter.toJson = .ok letter := by
  cases letter <;> rfl

end PitchLetter

namespace EnteredNote

def toJson (note : EnteredNote) : Json :=
  .record [("pitch", note.letter.toJson), ("octave", note.octave.toJson),
    ("duration", .nat note.duration.toNat), ("dotted", .bool note.dotted),
    ("accidental", .option Accidental.toJson note.accidental)]

def ofJson : Json.Decoder EnteredNote := fun json => do
  let record ← Json.Record.ofJson ["pitch", "octave", "duration", "dotted", "accidental"] json
  let letter ← record.required "pitch" PitchLetter.ofJson
  let octave ← record.required "octave" Octave.ofJson
  let duration ← record.required "duration" Json.decodeUInt32
  let dotted ← record.required "dotted" Json.decodeBool
  let accidental ← record.optional "accidental" Accidental.ofJson
  .ok { letter, octave, duration, dotted, accidental }

theorem decode_encode (note : EnteredNote) : ofJson note.toJson = .ok note := by
  have hrecord : Json.Record.ofJson ["pitch", "octave", "duration", "dotted", "accidental"]
      note.toJson = .ok ⟨false, [("pitch".toList, note.letter.toJson),
        ("octave".toList, note.octave.toJson), ("duration".toList, .nat note.duration.toNat),
        ("dotted".toList, .bool note.dotted),
        ("accidental".toList, .option Accidental.toJson note.accidental)]⟩ :=
    Json.Record.ofJson_record (by simp)
  have haccidental : Json.decodeOption Accidental.ofJson
      (.option Accidental.toJson note.accidental) = .ok note.accidental :=
    Json.decodeOption_option (fun accidental _ => by cases accidental <;> nofun)
      fun accidental _ => accidental.decode_encode
  simp only [ofJson, hrecord, bind, Except.bind]
  simp [Json.Record.required, Json.Record.optional, Json.Record.find?, List.lookup_cons,
    PitchLetter.ofJson_toJson_letter, Octave.decode_encode, haccidental]

end EnteredNote

namespace Keyboard

/-- No index of a note is larger. -/
def maxIndex : Nat := UInt64.size - 1

def toJson (keyboard : Keyboard) : Json :=
  .record [("selected_duration", .nat keyboard.duration.toNat),
    ("dotted_mode", .bool keyboard.dotted), ("selected_octave", keyboard.octave.toJson),
    ("notes", .list EnteredNote.toJson keyboard.notes),
    ("selected_index", .option .nat keyboard.selected)]

def ofJson : Json.Decoder Keyboard := fun json => do
  let record ← Json.Record.ofJson
    ["selected_duration", "dotted_mode", "selected_octave", "notes", "selected_index"] json
  let duration ← record.required "selected_duration" Json.decodeUInt32
  let dotted ← record.required "dotted_mode" Json.decodeBool
  let octave ← record.required "selected_octave" Octave.ofJson
  let notes ← record.required "notes" (Json.decodeList EnteredNote.ofJson)
  let selected ← record.optional "selected_index" (Json.decodeNat maxIndex)
  .ok { duration, dotted, octave, notes, selected }

/-- The text that a keyboard is saved as. -/
def save (keyboard : Keyboard) : List Char :=
  keyboard.toJson.render

/-- The keyboard that a text saves. -/
def load (text : List Char) : Except JsonError Keyboard := do
  ofJson (← Json.parse text)

/-- A keyboard is read back if the index of its selected note is not too large. -/
theorem ofJson_toJson_of_selected_le {keyboard : Keyboard}
    (h : ∀ index, keyboard.selected = some index → index ≤ maxIndex) :
    ofJson keyboard.toJson = .ok keyboard := by
  have hrecord : Json.Record.ofJson
      ["selected_duration", "dotted_mode", "selected_octave", "notes", "selected_index"]
      keyboard.toJson = .ok ⟨false, [("selected_duration".toList, .nat keyboard.duration.toNat),
        ("dotted_mode".toList, .bool keyboard.dotted),
        ("selected_octave".toList, keyboard.octave.toJson),
        ("notes".toList, .list EnteredNote.toJson keyboard.notes),
        ("selected_index".toList, .option .nat keyboard.selected)]⟩ :=
    Json.Record.ofJson_record (by simp)
  have hnotes : Json.decodeList EnteredNote.ofJson (.list EnteredNote.toJson keyboard.notes) =
      .ok keyboard.notes :=
    Json.decodeList_list fun note _ => note.decode_encode
  have hselected : Json.decodeOption (Json.decodeNat maxIndex) (.option .nat keyboard.selected) =
      .ok keyboard.selected :=
    Json.decodeOption_option (fun _ _ => nofun) fun index hindex =>
      Json.decodeNat_nat (h index hindex)
  simp only [ofJson, hrecord, bind, Except.bind]
  simp [Json.Record.required, Json.Record.optional, Json.Record.find?, List.lookup_cons,
    Octave.decode_encode, hnotes, hselected]

end Keyboard

end MotifSearch
