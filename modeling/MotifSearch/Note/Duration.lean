import MotifSearch.Text.Number

/-!
# Durations

A duration code is the denominator of a note value, or one of the three long values that have
names in MEI and are written with zeros in kern.

## Main definitions

* `DurationCode` — a duration code
* `DurationCode.ofText?` — the code that a text spells
* `DurationCode.kern` — how a kern record writes a code

## Main results

* `isDigit_of_mem_kern`, `kern_ne_nil` — a kern record writes a code with digits only
* `ofText?_decimal` — the digits of a positive denominator spell it
-/

namespace MotifSearch

/-- A note value: a denominator, such as 4 for a quarter note, or one of the long values. -/
inductive DurationCode where
  | denominator (n : UInt32)
  | breve
  | long
  | maxima
  deriving DecidableEq

namespace DurationCode

/-- The code that a text spells, with blanks around it. No note has the denominator zero. -/
def ofText? (text : List Char) : Option DurationCode :=
  let code := Text.trim text
  if code = "breve".toList then some breve
  else if code = "long".toList then some long
  else if code = "maxima".toList then some maxima
  else ((Text.readUInt32 code).filter (· ≠ 0)).map denominator

/-- How a kern record writes a code. -/
def kern : DurationCode → List Char
  | denominator n => Text.decimal n.toNat
  | breve => ['0']
  | long => ['0', '0']
  | maxima => ['0', '0', '0']

theorem isDigit_of_mem_kern {code : DurationCode} {c : Char} (h : c ∈ code.kern) :
    c.isDigit = true := by
  cases code with
  | denominator n => exact Text.isDigit_of_mem_decimal h
  | breve | long | maxima =>
    simp only [kern, List.mem_cons, List.not_mem_nil, or_false, or_self] at h
    subst h
    rfl

theorem kern_ne_nil (code : DurationCode) : code.kern ≠ [] := by
  cases code with
  | denominator n => exact Text.decimal_ne_nil n.toNat
  | breve | long | maxima => simp [kern]

/-- The digits of a positive denominator spell it. -/
theorem ofText?_decimal {n : UInt32} (h : n ≠ 0) :
    ofText? (Text.decimal n.toNat) = some (denominator n) := by
  have hdigit : ∀ c ∈ Text.decimal n.toNat, c.isDigit = true :=
    fun c hc => Text.isDigit_of_mem_decimal hc
  have hname : ∀ c rest, c.isDigit = false → Text.decimal n.toNat ≠ c :: rest := by
    intro c rest hc heq
    have := hdigit c (by simp [heq])
    simp [hc] at this
  have hbreve : Text.decimal n.toNat ≠ "breve".toList := hname 'b' _ (by decide)
  have hlong : Text.decimal n.toNat ≠ "long".toList := hname 'l' _ (by decide)
  have hmaxima : Text.decimal n.toNat ≠ "maxima".toList := hname 'm' _ (by decide)
  simp only [ofText?, Text.trim_decimal]
  rw [if_neg hbreve, if_neg hlong, if_neg hmaxima, Text.readUInt32_decimal]
  simp [h]

end DurationCode

end MotifSearch
