import MotifSearch.Xml.Chars
import MotifSearch.Xml.Error

/-!
# Comments, processing instructions and literal sections

These three have nothing in them that counts as markup, and nothing in them is kept. They are read
one character at a time, so that the same reading serves before, inside and after the root element.

## Main definitions

* `Aside` — how far the reading of one of them has come
* `Aside.step` — read one more character
* `skipAsides` — skip blanks, comments and processing instructions

## Main results

* `skipAsides_of_head` — where neither begins, nothing is skipped
-/

namespace MotifSearch.Xml

/-- How far the reading of a comment, a processing instruction or a literal section has come. -/
inductive Aside where
  /-- In a comment, after a number of hyphens. Two of them can only be its end. -/
  | comment (hyphens : Nat)
  /-- In the name of a processing instruction, whose characters are kept in reverse. -/
  | target (seen : List Char)
  /-- In a processing instruction, and whether a question mark comes before. -/
  | instruction (question : Bool)
  /-- In a literal section, after a number of closing brackets, more than two counting as two. -/
  | literal (brackets : Nat)
  deriving DecidableEq

namespace Aside

/-- Read one more character; the result is `none` after the last one. -/
def step : Aside → Char → Except XmlError (Option Aside)
  | comment hyphens, c =>
    if hyphens = 2 then if c = '>' then .ok none else .error .badComment
    else if c = '-' then .ok (some (comment (hyphens + 1)))
    else if isAllowed c then .ok (some (comment 0))
    else .error .badCharacter
  | target [], c => if isNameStart c then .ok (some (target [c])) else .error .badName
  | target seen, c =>
    if isNameChar c then .ok (some (target (c :: seen)))
    else if c = ' ' ∧ seen = "lmx".toList then .error .badDeclaration
    else if isAllowed c then .ok (some (instruction (c == '?')))
    else .error .badCharacter
  | instruction question, c =>
    if question ∧ c = '>' then .ok none
    else if isAllowed c then .ok (some (instruction (c == '?')))
    else .error .badCharacter
  | literal brackets, c =>
    if brackets = 2 ∧ c = '>' then .ok none
    else if c = ']' then .ok (some (literal (min 2 (brackets + 1))))
    else if isAllowed c then .ok (some (literal 0))
    else .error .badCharacter

end Aside

/-- What follows the blanks, comments and processing instructions at the beginning of a text. The
first argument is the one that has been begun already, if any. -/
def skipAsides : Option Aside → List Char → Except XmlError (List Char)
  | none, '<' :: '!' :: '-' :: '-' :: rest => skipAsides (some (.comment 0)) rest
  | none, '<' :: '?' :: rest => skipAsides (some (.target [])) rest
  | none, c :: rest => if isBlank c then skipAsides none rest else .ok (c :: rest)
  | none, [] => .ok []
  | some _, [] => .error .unexpectedEnd
  | some aside, c :: rest => do
    let next ← aside.step c
    skipAsides next rest

/-- Where neither a blank nor an aside begins, nothing is skipped. -/
theorem skipAsides_of_head {c d : Char} {rest : List Char} (hblank : isBlank c = false)
    (hbang : d ≠ '!') (hquestion : d ≠ '?') :
    skipAsides none (c :: d :: rest) = .ok (c :: d :: rest) := by
  unfold skipAsides
  split
  · next heq => exact absurd (List.cons.inj (List.cons.inj heq).2).1 hbang
  · next heq => exact absurd (List.cons.inj (List.cons.inj heq).2).1 hquestion
  · next heq =>
    cases heq
    simp [hblank]
  all_goals contradiction

end MotifSearch.Xml
