import MotifSearch.Text.Blank

/-!
# Accidentals

An accidental is written by a code in MEI attributes and by repeated signs in kern records. A
natural is not written in kern, and a quarter-tone cannot be.

## Main definitions

* `Accidental` — an accidental, `plain` being the absence of one
* `Accidental.ofText?`, `Accidental.code?` — its MEI code
* `Accidental.kern?` — its kern signs

## Main results

* `ofText?_code` — a code is read back
-/

namespace MotifSearch

/-- An accidental, as far as patterns can ask for one. -/
inductive Accidental where
  | plain
  | sharp
  | flat
  | natural
  | doubleSharp
  | doubleFlat
  | quarterSharp
  deriving DecidableEq

namespace Accidental

/-- The name of an accidental. -/
def name : Accidental → String
  | plain => "none"
  | sharp => "sharp"
  | flat => "flat"
  | natural => "natural"
  | doubleSharp => "double_sharp"
  | doubleFlat => "double_flat"
  | quarterSharp => "quarter_sharp"

/-- All accidentals. -/
def all : List Accidental :=
  [plain, sharp, flat, natural, doubleSharp, doubleFlat, quarterSharp]

/-- The accidental of a code without blanks around it. A double sharp has two codes, and the empty
code stands for no accidental. -/
def ofCode? (code : List Char) : Option Accidental :=
  if code = [] then some plain
  else if code = ['s'] then some sharp
  else if code = ['f'] then some flat
  else if code = ['n'] then some natural
  else if code = ['x'] ∨ code = ['s', 's'] then some doubleSharp
  else if code = ['f', 'f'] then some doubleFlat
  else if code = ['1', 'q', 's'] then some quarterSharp
  else none

/-- The accidental that a text spells, with blanks around it. -/
def ofText? (text : List Char) : Option Accidental :=
  ofCode? (Text.trim text)

/-- The code that is written for an accidental; none is written for its absence. -/
def code? : Accidental → Option (List Char)
  | plain => none
  | sharp => some ['s']
  | flat => some ['f']
  | natural => some ['n']
  | doubleSharp => some ['x']
  | doubleFlat => some ['f', 'f']
  | quarterSharp => some ['1', 'q', 's']

/-- The code of an accidental, empty for its absence. -/
def code (accidental : Accidental) : List Char :=
  accidental.code?.getD []

/-- The signs that a kern record writes after the pitch letters, if there is a way to write the
accidental at all. -/
def kern? : Accidental → Option (List Char)
  | plain | natural => some []
  | sharp => some ['#']
  | flat => some ['-']
  | doubleSharp => some ['#', '#']
  | doubleFlat => some ['-', '-']
  | quarterSharp => none

@[simp] theorem ofText?_code (accidental : Accidental) :
    ofText? accidental.code = some accidental := by
  cases accidental <;> decide

end Accidental

end MotifSearch
