import MotifSearch.Text.Blank
import MotifSearch.Text.Number

/-!
# Pitch letters and octaves

A pitch is named by a letter and an octave, both as in MEI: an octave begins at c, and octave 4
begins at middle c. In a kern record a letter is repeated instead: lower case from middle c
upwards, once more for each octave, and upper case below it, once more for each octave down.

## Main definitions

* `PitchLetter` — a letter, with `PitchLetter.ofText?`, `PitchLetter.up`, `PitchLetter.down`
* `Octave` — an octave number between −128 and 127, with `Octave.up` and `Octave.down`
* `kernLetters` — how a kern record writes a letter in an octave

## Main results

* `up_down`, `down_up` — the two steps undo each other
* `isAlpha_of_mem_kernLetters` — a kern record writes a letter in one case or the other
* `ofText?_char`, `ofText?_text` — the letter itself is one of its spellings, and so is the number
  of an octave
-/

namespace MotifSearch

/-- A pitch letter, in ascending order within an octave. -/
inductive PitchLetter where
  | c | d | e | f | g | a | b
  deriving DecidableEq

namespace PitchLetter

/-- The letter in lower case. -/
def char : PitchLetter → Char
  | c => 'c'
  | d => 'd'
  | e => 'e'
  | f => 'f'
  | g => 'g'
  | a => 'a'
  | b => 'b'

/-- The name of a letter. -/
def name (letter : PitchLetter) : String :=
  String.singleton letter.char

/-- All letters, in ascending order. -/
def all : List PitchLetter := [c, d, e, f, g, a, b]

/-- The letter of a character, in lower case only. -/
def ofChar? : Char → Option PitchLetter
  | 'c' => some c
  | 'd' => some d
  | 'e' => some e
  | 'f' => some f
  | 'g' => some g
  | 'a' => some a
  | 'b' => some b
  | _ => none

/-- The letter that a text spells: in either case, with blanks around it. -/
def ofText? (text : List Char) : Option PitchLetter :=
  match Text.trim text with
  | [letter] => ofChar? letter.toLower
  | _ => none

/-- The next letter up; c follows b. -/
def up : PitchLetter → PitchLetter
  | c => d
  | d => e
  | e => f
  | f => g
  | g => a
  | a => b
  | b => c

/-- The next letter down; b follows c. -/
def down : PitchLetter → PitchLetter
  | c => b
  | d => c
  | e => d
  | f => e
  | g => f
  | a => g
  | b => a

@[simp] theorem up_down (letter : PitchLetter) : letter.down.up = letter := by
  cases letter <;> rfl

@[simp] theorem down_up (letter : PitchLetter) : letter.up.down = letter := by
  cases letter <;> rfl

@[simp] theorem ofText?_char (letter : PitchLetter) : ofText? [letter.char] = some letter := by
  cases letter <;> decide

end PitchLetter

/-- An octave number. -/
structure Octave where
  number : Int
  low : -128 ≤ number
  high : number ≤ 127
  deriving DecidableEq

namespace Octave

/-- The octave with a given number, if there is one. -/
def ofInt? (n : Int) : Option Octave :=
  if h : -128 ≤ n ∧ n ≤ 127 then some ⟨n, h.1, h.2⟩ else none

/-- The octave whose number is nearest to the given one. -/
def clamp (n : Int) : Octave :=
  ⟨max (-128) (min n 127), by omega, by omega⟩

/-- The octave that a text spells, with blanks around it. -/
def ofText? (text : List Char) : Option Octave :=
  (Text.readInt (-128) 127 (Text.trim text)).bind ofInt?

/-- The next octave up; the highest one stays where it is. -/
def up (octave : Octave) : Octave :=
  clamp (octave.number + 1)

/-- The next octave down; the lowest one stays where it is. -/
def down (octave : Octave) : Octave :=
  clamp (octave.number - 1)

/-- The number in decimal. -/
def text (octave : Octave) : List Char :=
  Text.signedDecimal octave.number

@[simp] theorem ofInt?_number (octave : Octave) : ofInt? octave.number = some octave := by
  simp [ofInt?, octave.low, octave.high]

/-- A written octave is read back. -/
@[simp] theorem ofText?_text (octave : Octave) : ofText? octave.text = some octave := by
  rw [ofText?, text, Text.trim_signedDecimal,
    Text.readInt_signedDecimal octave.low octave.high, Option.bind_some, ofInt?_number]

end Octave

/-- How a kern record writes a letter in an octave. -/
def kernLetters (letter : PitchLetter) (octave : Octave) : List Char :=
  if 4 ≤ octave.number then
    List.replicate (octave.number - 3).toNat letter.char
  else
    List.replicate (4 - octave.number).toNat letter.char.toUpper

theorem kernLetters_ne_nil (letter : PitchLetter) (octave : Octave) :
    kernLetters letter octave ≠ [] := by
  unfold kernLetters
  split
  · rw [ne_eq, List.replicate_eq_nil_iff]
    omega
  · rw [ne_eq, List.replicate_eq_nil_iff]
    omega

theorem isAlpha_of_mem_kernLetters {letter : PitchLetter} {octave : Octave} {c : Char}
    (h : c ∈ kernLetters letter octave) : c.isAlpha = true := by
  unfold kernLetters at h
  split at h
  · rw [List.eq_of_mem_replicate h]
    cases letter <;> rfl
  · rw [List.eq_of_mem_replicate h]
    cases letter <;> rfl

end MotifSearch
