import MotifSearch.Json.Basic
import MotifSearch.Text.Number

/-!
# Tokens of a JSON text

A JSON text is read in two steps; this file has the first, which splits it into brackets, commas,
colons, strings, and runs of other characters. Such a run is a number or one of three words.

## Main definitions

* `Json.Token` — a token
* `Json.readWord` — the value of a run of other characters
* `Json.OpenString` — how far the reading of a string has come
* `Json.scan` — the tokens of a text

## Main results

* `readWord_signedDecimal` — an integer in decimal is read back
-/

namespace MotifSearch.Json

/-- A token of a JSON text. -/
inductive Token where
  | openArray
  | closeArray
  | openObject
  | closeObject
  | comma
  | colon
  | scalar (value : Json)

/-- Whether a character separates tokens and means nothing else. -/
def isBlank (c : Char) : Bool :=
  c == ' ' || c == '\t' || c == '\n' || c == '\r'

/-- The token of a character that is one by itself. -/
def punctuation? : Char → Option Token
  | '[' => some .openArray
  | ']' => some .closeArray
  | '\x7b' => some .openObject
  | '\x7d' => some .closeObject
  | ',' => some .comma
  | ':' => some .colon
  | _ => none

/-- Whether a text is a number without leading zeros and without a sign. -/
def isWhole : List Char → Bool
  | [] => false
  | ['0'] => true
  | '0' :: _ => false
  | digits => digits.all Char.isDigit

/-- Whether a text is empty or a fraction, that is a point and digits. -/
def isFraction : List Char → Bool
  | [] => true
  | '.' :: digits => digits ≠ [] && digits.all Char.isDigit
  | _ => false

/-- Whether a text is the rest of an exponent: digits, perhaps after a sign. -/
def isExponent : List Char → Bool
  | '+' :: digits | '-' :: digits => digits ≠ [] && digits.all Char.isDigit
  | digits => digits ≠ [] && digits.all Char.isDigit

/-- The value of a number, given whether it is negative and its text without the sign. -/
def readMagnitude (negative : Bool) (digits : List Char) : Except JsonError Json :=
  let written := if negative then '-' :: digits else digits
  let isMark (c : Char) : Bool := c == 'e' || c == 'E'
  let mantissa := digits.takeWhile (!isMark ·)
  let whole := mantissa.takeWhile (· ≠ '.')
  let fraction := mantissa.dropWhile (· ≠ '.')
  if !isWhole whole || !isFraction fraction then .error .badWord
  else
    match digits.dropWhile (!isMark ·), fraction with
    | _ :: exponent, _ => if isExponent exponent then .ok (decimal written) else .error .badWord
    | [], _ :: _ => .ok (decimal written)
    | [], [] =>
      let value := Nat.ofDigitChars 10 whole 0
      if negative then .ok (if value = 0 then decimal written else integer (-(value : Int)))
      else .ok (integer value)

/-- The value of a run of characters that is neither a string nor punctuation. -/
def readWord (run : List Char) : Except JsonError Json :=
  if run = "null".toList then .ok null
  else if run = "true".toList then .ok (bool true)
  else if run = "false".toList then .ok (bool false)
  else
    match run with
    | '-' :: digits => readMagnitude true digits
    | digits => readMagnitude false digits

/-- How far the reading of a string has come. -/
structure OpenString where
  /-- The text so far, in reverse, unless half of a pair stood alone in it. -/
  text : JsonText
  /-- The first half of a pair that has been read right before, if any. -/
  half : Option Nat
  deriving DecidableEq

namespace OpenString

/-- A string of which nothing has been read. -/
def start : OpenString := ⟨some [], none⟩

/-- Read a character. -/
def push (str : OpenString) (c : Char) : OpenString :=
  match str.half with
  | none => { str with text := str.text.map (c :: ·) }
  | some _ => ⟨none, none⟩

/-- Read an escape for a code unit of 16 bits. -/
def pushUnit (str : OpenString) (code : Nat) : OpenString :=
  -- The first half of a pair waits for the second one. A half that stands alone spoils the text.
  if 0xd800 ≤ code ∧ code < 0xdc00 then
    match str.half with
    | none => { str with half := some code }
    | some _ => ⟨none, some code⟩
  else if 0xdc00 ≤ code ∧ code < 0xe000 then
    match str.half with
    | some first =>
      let c := Char.ofNat (0x10000 + (first - 0xd800) * 0x400 + (code - 0xdc00))
      ⟨str.text.map (c :: ·), none⟩
    | none => ⟨none, none⟩
  else str.push (Char.ofNat code)

/-- The text of the string once it is closed. -/
def close (str : OpenString) : JsonText :=
  match str.half with
  | none => str.text.map List.reverse
  | some _ => none

end OpenString

/-- The character that a backslash and a letter or mark stand for. -/
def escaped? : Char → Option Char
  | '"' => some '"'
  | '\\' => some '\\'
  | '/' => some '/'
  | 'b' => some '\x08'
  | 'f' => some '\x0c'
  | 'n' => some '\n'
  | 'r' => some '\r'
  | 't' => some '\t'
  | _ => none

/-- The value of a hexadecimal digit. -/
def hexDigit? (c : Char) : Option Nat :=
  if c.isDigit then some (c.toNat - '0'.toNat)
  else if 'a' ≤ c ∧ c ≤ 'f' then some (c.toNat - 'a'.toNat + 10)
  else if 'A' ≤ c ∧ c ≤ 'F' then some (c.toNat - 'A'.toNat + 10)
  else none

/-- Where in a JSON text a reader is. -/
inductive Scan where
  | between
  /-- In a run of other characters, kept in reverse. -/
  | run (seen : List Char)
  | inString (str : OpenString)
  /-- After a backslash. -/
  | escape (str : OpenString)
  /-- In an escape for a code unit: how many digits are missing, and the value so far. -/
  | codeUnit (str : OpenString) (missing value : Nat)

/-- The tokens of a text, those that have been read already given in reverse. -/
def scan : Scan → List Token → List Char → Except JsonError (List Token)
  | .between, tokens, [] => .ok tokens.reverse
  | .run seen, tokens, [] => do
    let value ← readWord seen.reverse
    .ok (Token.scalar value :: tokens).reverse
  | .inString _, _, [] | .escape _, _, [] | .codeUnit _ _ _, _, [] => .error .unclosedString
  | .between, tokens, c :: rest =>
    if isBlank c then scan .between tokens rest
    else if c = '"' then scan (.inString .start) tokens rest
    else
      match punctuation? c with
      | some token => scan .between (token :: tokens) rest
      | none => scan (.run [c]) tokens rest
  | .run seen, tokens, c :: rest =>
    if isBlank c then do
      let value ← readWord seen.reverse
      scan .between (.scalar value :: tokens) rest
    else if c = '"' then .error .badWord
    else
      match punctuation? c with
      | some token => do
        let value ← readWord seen.reverse
        scan .between (token :: .scalar value :: tokens) rest
      | none => scan (.run (c :: seen)) tokens rest
  | .inString str, tokens, c :: rest =>
    if c = '"' then scan .between (.scalar (string str.close) :: tokens) rest
    else if c = '\\' then scan (.escape str) tokens rest
    else if c.toNat < 0x20 then .error .badCharacter
    else scan (.inString (str.push c)) tokens rest
  | .escape str, tokens, c :: rest =>
    if c = 'u' then scan (.codeUnit str 4 0) tokens rest
    else
      match escaped? c with
      | some d => scan (.inString (str.push d)) tokens rest
      | none => .error .badEscape
  | .codeUnit str missing value, tokens, c :: rest =>
    match hexDigit? c with
    | some digit =>
      let value := value * 16 + digit
      -- The last digit ends the escape.
      if missing ≤ 1 then scan (.inString (str.pushUnit value)) tokens rest
      else scan (.codeUnit str (missing - 1) value) tokens rest
    | none => .error .badEscape

private theorem takeWhile_dropWhile_of_all {α : Type} {test : α → Bool} {items : List α}
    (h : ∀ item ∈ items, test item = true) :
    items.takeWhile test = items ∧ items.dropWhile test = [] := by
  induction items with
  | nil => exact ⟨rfl, rfl⟩
  | cons item items ih =>
    have := ih fun other hother => h other (by simp [hother])
    simp_all

private theorem isWhole_decimal (n : Nat) : isWhole (Text.decimal n) = true := by
  have hdigits : (Text.decimal n).all Char.isDigit = true :=
    List.all_eq_true.mpr fun _ h => Text.isDigit_of_mem_decimal h
  unfold isWhole
  split
  · next heq => exact absurd heq (Text.decimal_ne_nil n)
  · rfl
  · next hrest heq => exact absurd (Text.eq_nil_of_decimal_eq_zero_cons heq) (by simpa using hrest)
  · exact hdigits

/-- The digits of a number have neither a fraction nor an exponent. -/
private theorem readMagnitude_decimal (n : Nat) (negative : Bool) :
    readMagnitude negative (Text.decimal n) =
      if negative then .ok (if n = 0 then decimal ('-' :: Text.decimal n) else integer (-(n : Int)))
      else .ok (integer (n : Int)) := by
  have hmark : _ ∧ _ := @takeWhile_dropWhile_of_all _ (fun c => !(c == 'e' || c == 'E'))
    (Text.decimal n) fun c hc => by
      have := Text.isDigit_of_mem_decimal hc
      by_cases h : c = 'e' ∨ c = 'E'
      · rcases h with rfl | rfl <;> exact absurd this (by decide)
      · simp_all
  have hpoint : _ ∧ _ := @takeWhile_dropWhile_of_all _ (fun c => decide (c ≠ '.'))
    (Text.decimal n) fun c hc => by
      have := Text.isDigit_of_mem_decimal hc
      have hne : c ≠ '.' := by rintro rfl; exact absurd this (by decide)
      simp [hne]
  have hvalue : Nat.ofDigitChars 10 (Text.decimal n) 0 = n := by
    simp [Text.decimal]
  simp only [readMagnitude, hmark.1, hmark.2, hpoint.1, hpoint.2, isWhole_decimal, isFraction,
    hvalue]
  cases negative <;> rfl

/-- An integer in decimal is read back. -/
theorem readWord_signedDecimal (n : Int) :
    readWord (Text.signedDecimal n) = .ok (integer n) := by
  have hmagnitude := readMagnitude_decimal n.natAbs
  obtain ⟨c, rest, hcons, hdigit⟩ := Text.exists_digit_cons_decimal n.natAbs
  by_cases hneg : n < 0
  · have hzero : ¬ n.natAbs = 0 := by omega
    have habs : -(n.natAbs : Int) = n := by omega
    have := hmagnitude true
    simp only [hzero, if_true, if_false, habs] at this
    simpa [readWord, Text.signedDecimal, hneg] using this
  · -- The first character is a digit, so that the run is no keyword and has no sign.
    have habs : (n.natAbs : Int) = n := by omega
    have hread := hmagnitude false
    have hne : ∀ d : Char, d.isDigit = false → c ≠ d := by
      rintro d hd rfl
      simp [hd] at hdigit
    simp only [readWord, Text.signedDecimal, hneg, if_false]
    rw [hcons] at hread ⊢
    have hnull := hne 'n' (by decide)
    have htrue := hne 't' (by decide)
    have hfalse := hne 'f' (by decide)
    have hminus := hne '-' (by decide)
    simp [hnull, htrue, hfalse]
    split
    · next heq => exact absurd (List.cons.inj heq).1 hminus
    · simpa [habs] using hread

end MotifSearch.Json
