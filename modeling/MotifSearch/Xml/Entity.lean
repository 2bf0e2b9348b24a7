import MotifSearch.Xml.Chars
import MotifSearch.Xml.Error

/-!
# References and attribute values

A reference stands for a character, given by its number or by one of five names, or for the text of
an entity that the document declares. Texts of entities may refer to entities again, within limits:
not more than ten levels deep, and not more than 255 times below one reference of the document.

In an attribute value a line break or a tab counts as a space, unless the document itself gives it
by number. An entity may bring an opening angle bracket into it as it is, but not by a reference.

## Main definitions

* `Reference`, `Reference.ofText` — what a reference stands for
* `Entities` — the declared entities and their texts
* `expandValue` — an attribute value, references resolved

## Main results

* `expandValue_of_plain` — a value without references, tabs and line breaks stays as it is
-/

namespace MotifSearch.Xml

/-- What a reference stands for. -/
inductive Reference where
  | char (c : Char)
  | entity (name : List Char)
  deriving DecidableEq

namespace Reference

/-- The value of a digit in hexadecimal notation. -/
def hexDigit? (c : Char) : Option Nat :=
  if c.isDigit then some (c.toNat - '0'.toNat)
  else if 'a' ≤ c ∧ c ≤ 'f' then some (c.toNat - 'a'.toNat + 10)
  else if 'A' ≤ c ∧ c ≤ 'F' then some (c.toNat - 'A'.toNat + 10)
  else none

/-- The number that digits to a base spell, as long as it stays below 2^32. -/
def codePoint? (base : Nat) (digits : List Char) : Option Nat :=
  if digits = [] then none
  else
    let append (value : Nat) (c : Char) : Option Nat := do
      let digit ← hexDigit? c
      let value := value * base + digit
      if digit < base ∧ value < UInt32.size then some value else none
    digits.foldlM append 0

/-- The character with a given number. A number that no character has stands for the replacement
character, and a number of a character that documents may not hold for nothing. -/
def ofCodePoint (n : Nat) : Except XmlError Reference :=
  let c := if n.isValidChar then Char.ofNat n else '\ufffd'
  if isAllowed c then .ok (char c) else .error .badReference

/-- The character of one of the names that need no declaration. -/
def named? (name : List Char) : Option Char :=
  [("quot".toList, '"'), ("amp".toList, '&'), ("apos".toList, '\''), ("lt".toList, '<'),
    ("gt".toList, '>')].lookup name

/-- What a reference stands for, given the text between its ampersand and its semicolon. -/
def ofText (text : List Char) : Except XmlError Reference :=
  match text with
  | '#' :: 'x' :: digits =>
    match codePoint? 16 digits with
    | some n => ofCodePoint n
    | none => .error .badReference
  | '#' :: digits =>
    match codePoint? 10 digits with
    | some n => ofCodePoint n
    | none => .error .badReference
  | name =>
    if name.head?.any isNameStart && name.all isNameChar then
      match named? name with
      | some c => .ok (char c)
      | none => .ok (entity name)
    else .error .badReference

end Reference

/-- The declared entities and their texts; the first declaration of a name counts. -/
abbrev Entities := List (List Char × List Char)

/-- The text of a declared entity. -/
def Entities.text (entities : Entities) (name : List Char) : Except XmlError (List Char) :=
  match entities.lookup name with
  | some text => .ok text
  | none => .error .unknownEntity

/-- How many levels deep the texts of entities may refer to entities. -/
def entityDepthLimit : Nat := 10

/-- How many references may be followed below one reference of the document. -/
def entityCountLimit : Nat := 255

/-- Count one more reference. Those of the document itself are free. -/
def countReference (nested : Bool) (count : Nat) : Except XmlError Nat :=
  if !nested then .ok count
  else if count < entityCountLimit then .ok (count + 1)
  else .error .entityLoop

/-- What a character becomes in an attribute value. -/
def valueChar (c : Char) : Char :=
  if isBlank c then ' ' else c

/-- An attribute value with its references resolved by `entity`, and the number of references that
have been followed. `nested` tells the text of an entity from the document, and the first of the
remaining arguments is the reference that is being read, in reverse. -/
def expandWith (nested : Bool) (entity : List Char → Nat → Except XmlError (List Char × Nat)) :
    Option (List Char) → List Char → Nat → Except XmlError (List Char × Nat)
  | none, [], count => .ok ([], count)
  | some _, [], _ => .error .badReference
  | none, '&' :: rest, count => expandWith nested entity (some []) rest count
  | none, '\r' :: '\n' :: rest, count => do
    let (value, count) ← expandWith nested entity none rest count
    .ok (' ' :: value, count)
  | none, c :: rest, count => do
    let (value, count) ← expandWith nested entity none rest count
    .ok (valueChar c :: value, count)
  | some seen, ';' :: rest, count => do
    match ← Reference.ofText seen.reverse with
    | .char c =>
      -- The document itself can write any character in this way, but not the text of an entity.
      if nested ∧ c = '<' then .error .badAttribute
      let (value, count) ← expandWith nested entity none rest count
      .ok ((if nested then valueChar c else c) :: value, count)
    | .entity name =>
      let count ← countReference nested count
      let (inner, count) ← entity name count
      -- The count is one of the references below each reference of the document.
      let count := if nested then count else 0
      let (value, count) ← expandWith nested entity none rest count
      .ok (inner ++ value, count)
  | some seen, c :: rest, count => expandWith nested entity (some (c :: seen)) rest count

/-- An attribute value, references resolved. `levels` is how many levels of entities may still be
opened. -/
def expandValue (entities : Entities) : (levels : Nat) → (nested : Bool) → List Char → Nat →
    Except XmlError (List Char × Nat)
  | 0, nested, text, count => expandWith nested (fun _ _ => .error .entityLoop) none text count
  | levels + 1, nested, text, count =>
    expandWith nested
      (fun name count => do expandValue entities levels true (← entities.text name) count)
      none text count

private theorem expandWith_of_plain {nested : Bool}
    {entity : List Char → Nat → Except XmlError (List Char × Nat)} {text : List Char} {count : Nat}
    (plain : ∀ c ∈ text, c ≠ '&' ∧ (isBlank c = true → c = ' ')) :
    expandWith nested entity none text count = .ok (text, count) := by
  induction text with
  | nil => rfl
  | cons c rest ih =>
    obtain ⟨hamp, hblank⟩ := plain c (by simp)
    have hrest := ih fun d hd => plain d (by simp [hd])
    have hvalue : valueChar c = c := by
      unfold valueChar
      split
      · next h => exact (hblank h).symm
      · rfl
    -- An ampersand and a carriage return are excluded, and no reference is being read.
    unfold expandWith
    split
    · next heq => cases heq
    · next heq => cases heq
    · next heq => exact absurd (List.cons.inj heq).1 hamp
    · next heq =>
      have := hblank ((List.cons.inj heq).1 ▸ rfl)
      simp [(List.cons.inj heq).1] at this
    · next heq =>
      cases heq
      simp [hrest, hvalue, bind, Except.bind]
    all_goals contradiction

/-- A value that holds neither references nor blanks other than the space stays as it is. -/
theorem expandValue_of_plain (entities : Entities) (levels : Nat) (nested : Bool)
    {text : List Char} (count : Nat)
    (plain : ∀ c ∈ text, c ≠ '&' ∧ (isBlank c = true → c = ' ')) :
    expandValue entities levels nested text count = .ok (text, count) := by
  cases levels with
  | zero => exact expandWith_of_plain plain
  | succ levels => exact expandWith_of_plain plain

end MotifSearch.Xml
