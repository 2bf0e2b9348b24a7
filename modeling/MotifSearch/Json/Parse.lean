import MotifSearch.Json.Token

/-!
# Reading JSON texts

The second step of reading a JSON text: its tokens are put together to one value. The arrays and
objects that are still open are kept in a list, the innermost one first.

## Main definitions

* `Json.Frame` — an open array or object
* `Json.Await` — what may come next
* `Json.assemble` — the value of a list of tokens
* `Json.parse` — the value of a text
-/

namespace MotifSearch.Json

/-- An open array or object with what has been read of it, the latest first. -/
inductive Frame where
  | array (items : List Json)
  /-- An object, and the key whose value comes next. -/
  | object (fields : List (JsonText × Json)) (key : JsonText)

/-- What may come next. -/
inductive Await where
  /-- A value, or else the end of an array in which nothing has been read. -/
  | value (orEnd : Bool)
  /-- A key, or else the end of an object in which nothing has been read. -/
  | key (orEnd : Bool)
  | colon
  /-- A comma or the end of the innermost array or object. -/
  | separator
  /-- Nothing but the end of the text. -/
  | done (result : Json)

/-- Put a complete value into the innermost open array or object. -/
def complete (value : Json) : List Frame → Await × List Frame
  | [] => (.done value, [])
  | .array items :: frames => (.separator, .array (value :: items) :: frames)
  | .object fields key :: frames => (.separator, .object ((key, value) :: fields) none :: frames)

/-- What may come after a token, with the arrays and objects that are open then. -/
def next : Await → List Frame → Token → Except JsonError (Await × List Frame)
  | .value _, frames, .scalar value => .ok (complete value frames)
  | .value _, frames, .openArray => .ok (.value true, .array [] :: frames)
  | .value _, frames, .openObject => .ok (.key true, .object [] none :: frames)
  | .value true, .array [] :: frames, .closeArray => .ok (complete (array []) frames)
  | .key _, .object fields _ :: frames, .scalar (.string key) =>
    .ok (.colon, .object fields key :: frames)
  | .key true, .object [] _ :: frames, .closeObject => .ok (complete (object []) frames)
  | .colon, frames, .colon => .ok (.value false, frames)
  | .separator, .array items :: frames, .comma => .ok (.value false, .array items :: frames)
  | .separator, .array items :: frames, .closeArray =>
    .ok (complete (array items.reverse) frames)
  | .separator, .object fields key :: frames, .comma =>
    .ok (.key false, .object fields key :: frames)
  | .separator, .object fields _ :: frames, .closeObject =>
    .ok (complete (object fields.reverse) frames)
  | _, _, _ => .error .badStructure

/-- The value of a list of tokens. -/
def assemble : Await → List Frame → List Token → Except JsonError Json
  | .done result, _, [] => .ok result
  | _, _, [] => .error .badStructure
  | await, frames, token :: tokens => do
    let (await, frames) ← next await frames token
    assemble await frames tokens

/-- The value of a text. -/
def parse (text : List Char) : Except JsonError Json := do
  let tokens ← scan .between [] text
  assemble (.value false) [] tokens

end MotifSearch.Json
