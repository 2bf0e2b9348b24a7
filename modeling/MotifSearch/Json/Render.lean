import MotifSearch.Json.Token

/-!
# Writing JSON texts

Values are written without blanks, fields in their order. Of the characters in a string only those
that have to be escaped are, by letters where there are some.

## Main definitions

* `Json.escapeChar`, `Json.quoteText` — a character inside a string, a text as a string
* `Json.render` — the text of a value

## Main results

* `renderItems_eq_map` — the texts below an array in terms of `List.map`
-/

namespace MotifSearch.Json

/-- A character inside a string. -/
def escapeChar (c : Char) : List Char :=
  if c = '"' then ['\\', '"']
  else if c = '\\' then ['\\', '\\']
  else if c = '\x08' then ['\\', 'b']
  else if c = '\t' then ['\\', 't']
  else if c = '\n' then ['\\', 'n']
  else if c = '\x0c' then ['\\', 'f']
  else if c = '\r' then ['\\', 'r']
  else if c.toNat < 0x20 then
    ['\\', 'u', '0', '0', Nat.digitChar (c.toNat / 16), Nat.digitChar (c.toNat % 16)]
  else [c]

/-- A text as a string. -/
def quoteText (text : List Char) : List Char :=
  '"' :: text.flatMap escapeChar ++ ['"']

/-- A string. One that spells no text is left empty. -/
def quoteString (text : JsonText) : List Char :=
  quoteText (text.getD [])

mutual

/-- The text of a value. -/
def render : Json → List Char
  | null => "null".toList
  | bool value => if value then "true".toList else "false".toList
  | integer value => Text.signedDecimal value
  | decimal written => written
  | string text => quoteString text
  | array items => ['['] ++ [','].intercalate (renderItems items) ++ [']']
  | object fields => ['\x7b'] ++ [','].intercalate (renderFields fields) ++ ['\x7d']

/-- The texts of the items of an array. -/
def renderItems : List Json → List (List Char)
  | [] => []
  | item :: items => item.render :: renderItems items

/-- The texts of the fields of an object. -/
def renderFields : List (JsonText × Json) → List (List Char)
  | [] => []
  | (key, value) :: fields => (quoteString key ++ ':' :: value.render) :: renderFields fields

end

theorem renderItems_eq_map (items : List Json) : renderItems items = items.map render := by
  induction items with
  | nil => rfl
  | cons item items ih => simp [renderItems, ih]

end MotifSearch.Json
