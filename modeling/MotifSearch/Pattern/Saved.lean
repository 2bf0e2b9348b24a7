import MotifSearch.Json.Decode
import MotifSearch.Pattern.Compile

/-!
# Patterns as JSON values

Every part of a pattern is written as a variant or a structure of its own. Reading accepts what
writing produces, and the liberties that JSON structures and variants have in general.

## Main definitions

* `Pattern.toJson`, `Pattern.ofJson` — a pattern
* `CompiledPattern.toJson` — a compiled pattern

## Main results

* `Accidental.decode_encode`, `Octave.decode_encode` — accidentals and octaves are read back
-/

namespace MotifSearch

open Json (Decoder Record Variant)

namespace PitchLetter

/-- A letter is written as its name. -/
def toJson (letter : PitchLetter) : Json :=
  .word letter.name

def ofJson : Decoder PitchLetter :=
  Json.decodeUnit all name

end PitchLetter

namespace Accidental

/-- An accidental is written as its name. -/
def toJson (accidental : Accidental) : Json :=
  .word accidental.name

def ofJson : Decoder Accidental :=
  Json.decodeUnit all name

theorem decode_encode (accidental : Accidental) :
    ofJson accidental.toJson = .ok accidental := by
  cases accidental <;> rfl

end Accidental

namespace Octave

/-- An octave is written as its number. -/
def toJson (octave : Octave) : Json :=
  .integer octave.number

def ofJson : Decoder Octave := fun json => do
  match ofInt? (← Json.decodeInt (-128) 127 json) with
  | some octave => .ok octave
  | none => .error .outOfRange

theorem decode_encode (octave : Octave) : ofJson octave.toJson = .ok octave := by
  simp [ofJson, toJson, Json.decodeInt, octave.low, octave.high, bind, Except.bind]

end Octave

namespace DurationCode

/-- A denominator is written with its number, a long value by its name. -/
def toJson : DurationCode → Json
  | denominator n => .record [("denominator", .nat n.toNat)]
  | breve => .word "breve"
  | long => .word "long"
  | maxima => .word "maxima"

def ofJson : Decoder DurationCode := fun json => do
  let variant ← Variant.ofJson json
  if variant.name = "denominator".toList then denominator <$> variant.content Json.decodeUInt32
  else if variant.name = "breve".toList then variant.unit breve
  else if variant.name = "long".toList then variant.unit long
  else if variant.name = "maxima".toList then variant.unit maxima
  else .error .unknownVariant

end DurationCode

namespace Constraint

/-- A property that is left open is written as a word, one that is given as what it is. -/
def toJson {α : Type} (encode : α → Json) : Constraint α → Json
  | any => .word "any"
  | exact value => .record [("exact", encode value)]

def ofJson {α : Type} (decode : Variant → Except JsonError α) : Decoder (Constraint α) :=
  fun json => do
    let variant ← Variant.ofJson json
    if variant.name = "any".toList then variant.unit any
    else if variant.name = "exact".toList then exact <$> decode variant
    else .error .unknownVariant

end Constraint

namespace PitchPattern

def toJson (pitch : PitchPattern) : Json :=
  .record [("name", pitch.letter.toJson), ("octave", pitch.octave.toJson),
    ("accidental", pitch.accidental.toJson Accidental.toJson)]

/-- Read a pitch out of the variant that gives it. -/
def ofVariant (variant : Variant) : Except JsonError PitchPattern :=
  variant.fields ["name", "octave", "accidental"] fun record => do
    let letter ← record.required "name" PitchLetter.ofJson
    let octave ← record.required "octave" Octave.ofJson
    let accidental ← record.required "accidental"
      (Constraint.ofJson fun variant => variant.content Accidental.ofJson)
    .ok ⟨letter, octave, accidental⟩

end PitchPattern

namespace DottedDuration

def toJson (duration : DottedDuration) : Json :=
  .record [("code", duration.code.toJson), ("dots", .nat duration.dots.toNat)]

/-- Read a duration out of the variant that gives it. -/
def ofVariant (variant : Variant) : Except JsonError DottedDuration :=
  variant.fields ["code", "dots"] fun record => do
    let code ← record.required "code" DurationCode.ofJson
    let dots ← record.required "dots" Json.decodeUInt8
    .ok ⟨code, dots⟩

end DottedDuration

namespace NotePattern

def toJson (note : NotePattern) : Json :=
  .record [("pitch", note.pitch.toJson PitchPattern.toJson),
    ("duration", note.duration.toJson DottedDuration.toJson)]

def ofJson : Decoder NotePattern := fun json => do
  let record ← Record.ofJson ["pitch", "duration"] json
  let pitch ← record.required "pitch" (Constraint.ofJson PitchPattern.ofVariant)
  let duration ← record.required "duration" (Constraint.ofJson DottedDuration.ofVariant)
  .ok ⟨pitch, duration⟩

end NotePattern

namespace Bounds

def toJson (bounds : Bounds) : Json :=
  let bound (n : UInt32) : Json := .nat n.toNat
  .record [("min", .option bound bounds.min), ("max", .option bound bounds.max)]

def ofJson : Decoder Bounds := fun json => do
  let record ← Record.ofJson ["min", "max"] json
  let min ← record.optional "min" Json.decodeUInt32
  let max ← record.optional "max" Json.decodeUInt32
  .ok ⟨min, max⟩

end Bounds

namespace Pattern

mutual

/-- A pattern is written as the variant that it is. -/
def toJson : Pattern → Json
  | note spec => .record [("note", spec.toJson)]
  | sequence children => .record [("sequence", .array (childrenToJson children))]
  | alternation branches => .record [("alternation", .array (branchesToJson branches))]
  | group children bounds =>
    .record [("group",
      .record [("children", .array (childrenToJson children)), ("bounds", bounds.toJson)])]

/-- The children of a node. -/
def childrenToJson : List Pattern → List Json
  | [] => []
  | child :: children => child.toJson :: childrenToJson children

/-- The branches of an alternation. -/
def branchesToJson : List (List Pattern) → List Json
  | [] => []
  | branch :: branches => .array (childrenToJson branch) :: branchesToJson branches

end

/-- Read a pattern that is nested at most `levels` deep. -/
def decode : (levels : Nat) → Decoder Pattern
  | 0, _ => .error .wrongKind
  | levels + 1, json => do
    let variant ← Variant.ofJson json
    let children := Json.decodeList (decode levels)
    if variant.name = "note".toList then note <$> variant.content NotePattern.ofJson
    else if variant.name = "sequence".toList then sequence <$> variant.content children
    else if variant.name = "alternation".toList then
      alternation <$> variant.content (Json.decodeList children)
    else if variant.name = "group".toList then
      variant.fields ["children", "bounds"] fun record => do
        let children ← record.required "children" children
        let bounds ← record.required "bounds" Bounds.ofJson
        .ok (group children bounds)
    else .error .unknownVariant

/-- Read a pattern. -/
def ofJson : Decoder Pattern := fun json =>
  decode json.depth json

end Pattern

namespace Diagnostic

def toJson (diagnostic : Diagnostic) : Json :=
  .record [("severity", .word diagnostic.severity.name), ("kind", .word diagnostic.kind),
    ("element", .word diagnostic.element), ("message", .word diagnostic.message)]

end Diagnostic

namespace CompiledPattern

/-- A compiled pattern is written as a structure. -/
def toJson (compiled : CompiledPattern) : Json :=
  .record [("expression", .text compiled.expression), ("canonical", .text compiled.canonical),
    ("diagnostics", .list Diagnostic.toJson compiled.diagnostics)]

end CompiledPattern

end MotifSearch
