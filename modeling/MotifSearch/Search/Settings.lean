import MotifSearch.Json.Decode
import MotifSearch.Json.Parse
import MotifSearch.Text.Blank

/-!
# Search settings

## Main definitions

* `ScanMode` — what matches are counted in
* `Settings` — the settings, with their defaults
* `Settings.ofText` — the settings that a text gives
-/

namespace MotifSearch

/-- What the matches in a score are counted in. -/
inductive ScanMode where
  /-- The score as it is. -/
  | whole
  /-- Each voice by itself. -/
  | voices
  deriving DecidableEq

namespace ScanMode

/-- The name of a mode. -/
def name : ScanMode → String
  | whole => "whole"
  | voices => "voices"

def ofJson : Json.Decoder ScanMode :=
  Json.decodeUnit [whole, voices] name

end ScanMode

/-- The settings of a search. -/
structure Settings where
  /-- What marks a touched record. -/
  marker : Char
  scanMode : ScanMode
  /-- Whether a marked score tells what the marker means. -/
  legend : Bool
  deriving DecidableEq

namespace Settings

/-- The settings that are used where none are given. -/
def default : Settings :=
  { marker := '@', scanMode := .voices, legend := true }

/-- A character is written as a string of one. -/
def decodeMarker : Json.Decoder Char := fun json => do
  match ← Json.decodeText json with
  | [c] => .ok c
  | _ => .error .wrongKind

/-- Read settings; what is missing has its default. -/
def ofJson : Json.Decoder Settings := fun json => do
  let record ← Json.Record.ofJson ["marker", "scan_mode", "rdf_legend"] json
  let marker ← record.withDefault "marker" decodeMarker default.marker
  let scanMode ← record.withDefault "scan_mode" ScanMode.ofJson default.scanMode
  let legend ← record.withDefault "rdf_legend" Json.decodeBool default.legend
  .ok { marker, scanMode, legend }

/-- The settings that a text gives, if there is one. A blank text gives the defaults. -/
def ofText (text : Option (List Char)) : Except JsonError Settings :=
  match text.map Text.trim with
  | none | some [] => .ok default
  | some text => do ofJson (← Json.parse text)

end Settings

end MotifSearch
