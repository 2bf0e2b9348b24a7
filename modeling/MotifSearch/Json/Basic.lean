/-!
# JSON values

A value keeps what a reader may ask about it: the fields of an object with their order and their
repetitions, whether a number is written as an integer, and whether a string is a text at all, which
it is not if an escape in it spells one half of a surrogate pair without the other.

## Main definitions

* `Json` — a value
* `JsonError` — why a text is no value, or a value not of the kind that is wanted
* `JsonError.message` — a cause in words
* `Json.record`, `Json.option`, `Json.list` — values of common shapes
* `Json.depth` — how deep a value is nested
-/

namespace MotifSearch

/-- The contents of a string, if it spells a text. -/
abbrev JsonText := Option (List Char)

/-- A JSON value. -/
inductive Json where
  | null
  | bool (value : Bool)
  /-- A number that is written as an integer. -/
  | integer (value : Int)
  /-- A number with a fraction or an exponent, or negative zero, as it is written. -/
  | decimal (written : List Char)
  | string (text : JsonText)
  | array (items : List Json)
  | object (fields : List (JsonText × Json))

/-- Why a text is no value, or a value not of the kind that is wanted. -/
inductive JsonError where
  | badCharacter
  | badEscape
  | badWord
  | unclosedString
  | badStructure
  | wrongKind
  | outOfRange
  | missingField
  | repeatedField
  | extraElement
  | unknownVariant
  deriving DecidableEq

/-- A cause in words. -/
def JsonError.message : JsonError → String
  | badCharacter => "a character that must be escaped"
  | badEscape => "unknown escape in a string"
  | badWord => "neither a number nor one of the known words"
  | unclosedString => "unclosed string"
  | badStructure => "a bracket, comma or colon is missing or misplaced"
  | wrongKind => "a value of another kind is expected"
  | outOfRange => "number out of range"
  | missingField => "missing field"
  | repeatedField => "repeated field"
  | extraElement => "too many elements"
  | unknownVariant => "unknown variant"

namespace Json

/-- The string that holds a text. -/
def text (text : List Char) : Json :=
  string (some text)

/-- The string that holds a literal. -/
def word (word : String) : Json :=
  text word.toList

/-- The number of a natural number. -/
def nat (n : Nat) : Json :=
  integer n

/-- The object with the given fields in the given order. -/
def record (fields : List (String × Json)) : Json :=
  object (fields.map fun (name, value) => (some name.toList, value))

/-- An optional value, null if it is missing. -/
def option {α : Type} (encode : α → Json) : Option α → Json
  | some value => encode value
  | none => null

/-- A list of values. -/
def list {α : Type} (encode : α → Json) (values : List α) : Json :=
  array (values.map encode)

mutual

/-- How many arrays and objects are nested in a value at most, counting the value itself. -/
def depth : Json → Nat
  | array items => itemsDepth items + 1
  | object fields => fieldsDepth fields + 1
  | _ => 1

/-- The greatest depth of a list of items. -/
def itemsDepth : List Json → Nat
  | [] => 0
  | item :: items => max item.depth (itemsDepth items)

/-- The greatest depth of the values of fields. -/
def fieldsDepth : List (JsonText × Json) → Nat
  | [] => 0
  | (_, value) :: fields => max value.depth (fieldsDepth fields)

end

end Json

end MotifSearch
