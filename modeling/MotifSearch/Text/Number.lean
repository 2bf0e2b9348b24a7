import MotifSearch.Text.Blank

/-!
# Decimal numbers in a bounded range

Counts, octaves, dots and duration codes are written in decimal. Reading one takes an optional
sign and at least one digit, allows any number of leading zeros, and fails when the value does not
fit the range asked for.

## Main definitions

* `Text.decimal`, `Text.signedDecimal` — the shortest decimal text of a number
* `Text.readNat`, `Text.readInt` — the number a text spells, if it lies in the range
* `Text.readUInt32`, `Text.readUInt8` — the same for the ranges of machine words

## Main results

* `readNat_decimal`, `readInt_signedDecimal` — what is written is read back
* `eq_nil_of_decimal_eq_zero_cons` — there are no leading zeros
* `trim_decimal`, `trim_signedDecimal` — a written number has no blanks around it
-/

namespace MotifSearch.Text

/-- The decimal digits of a natural number, with no leading zero. -/
def decimal (n : Nat) : List Char :=
  Nat.toDigits 10 n

/-- The decimal digits of an integer, after a minus sign when it is negative. -/
def signedDecimal (n : Int) : List Char :=
  if n < 0 then '-' :: decimal n.natAbs else decimal n.natAbs

/-- The number that a non-empty run of ASCII digits spells. -/
def digits? (text : List Char) : Option Nat :=
  if text ≠ [] ∧ text.all Char.isDigit then some (Nat.ofDigitChars 10 text 0) else none

/-- The natural number a text spells, if it is at most `limit`. A plus sign may stand in front. -/
def readNat (limit : Nat) (text : List Char) : Option Nat :=
  let digits := match text with
    | '+' :: rest => rest
    | _ => text
  (digits? digits).filter (· ≤ limit)

/-- The integer a text spells, if it lies between `low` and `high`. Either sign may stand in
front. -/
def readInt (low high : Int) (text : List Char) : Option Int :=
  let value := match text with
    | '+' :: rest => (digits? rest).map Int.ofNat
    | '-' :: rest => (digits? rest).map fun n => - Int.ofNat n
    | _ => (digits? text).map Int.ofNat
  value.filter fun n => low ≤ n && n ≤ high

/-- The number below 2^32 that a text spells. -/
def readUInt32 (text : List Char) : Option UInt32 :=
  (readNat (UInt32.size - 1) text).map UInt32.ofNat

/-- The number below 2^8 that a text spells. -/
def readUInt8 (text : List Char) : Option UInt8 :=
  (readNat (UInt8.size - 1) text).map UInt8.ofNat

theorem decimal_ne_nil (n : Nat) : decimal n ≠ [] :=
  Nat.toDigits_ne_nil

theorem isDigit_of_mem_decimal {n : Nat} {c : Char} (h : c ∈ decimal n) : c.isDigit = true :=
  Nat.isDigit_of_mem_toDigits (by decide) (by decide) h

/-- Zero alone begins with the digit zero. -/
theorem eq_nil_of_decimal_eq_zero_cons {n : Nat} {rest : List Char}
    (h : decimal n = '0' :: rest) : rest = [] := by
  induction n using Nat.strongRecOn generalizing rest with
  | ind n ih =>
    by_cases hlt : n < 10
    · rw [decimal, Nat.toDigits_of_lt_base hlt] at h
      exact (List.cons.inj h).2.symm
    · have hstep := Nat.toDigits_of_base_le (b := 10) (by decide) (Nat.le_of_not_lt hlt)
      rw [decimal, hstep] at h
      cases hquot : Nat.toDigits 10 (n / 10) with
      | nil => exact absurd hquot Nat.toDigits_ne_nil
      | cons c digits =>
        rw [hquot, List.cons_append] at h
        have hc : c = '0' := (List.cons.inj h).1
        have hnil : digits = [] := ih (n / 10) (by omega) (by rw [decimal, hquot, hc])
        have hzero := Nat.ofDigitChars_ten_toDigits (n := n / 10)
        rw [hquot, hc, hnil] at hzero
        have : (0 : Nat) = n / 10 := hzero
        omega

theorem isBlank_of_isDigit {c : Char} (h : c.isDigit = true) : isBlank c = false := by
  simp only [Char.isDigit, Bool.and_eq_true, decide_eq_true_eq] at h
  have h1 : 48 ≤ c.toNat := h.1
  have h2 : c.toNat ≤ 57 := h.2
  simp only [isBlank, Bool.or_eq_false_iff, Bool.and_eq_false_iff, beq_eq_false_iff_ne,
    decide_eq_false_iff_not]
  omega

@[simp] theorem trim_decimal (n : Nat) : trim (decimal n) = decimal n :=
  trim_eq_self
    (fun _ h => isBlank_of_isDigit (isDigit_of_mem_decimal (List.mem_of_mem_head? h)))
    (fun _ h => isBlank_of_isDigit (isDigit_of_mem_decimal (List.mem_of_mem_getLast? h)))

/-- A written integer consists of digits, perhaps after a minus sign. -/
theorem eq_or_isDigit_of_mem_signedDecimal {n : Int} {c : Char} (h : c ∈ signedDecimal n) :
    c = '-' ∨ c.isDigit = true := by
  rw [signedDecimal] at h
  split at h
  · exact (List.mem_cons.mp h).imp id isDigit_of_mem_decimal
  · exact .inr (isDigit_of_mem_decimal h)

theorem isBlank_of_mem_signedDecimal {n : Int} {c : Char} (h : c ∈ signedDecimal n) :
    isBlank c = false := by
  rcases eq_or_isDigit_of_mem_signedDecimal h with rfl | h
  · decide
  · exact isBlank_of_isDigit h

@[simp] theorem trim_signedDecimal (n : Int) : trim (signedDecimal n) = signedDecimal n :=
  trim_eq_self (fun _ h => isBlank_of_mem_signedDecimal (List.mem_of_mem_head? h))
    (fun _ h => isBlank_of_mem_signedDecimal (List.mem_of_mem_getLast? h))

theorem digits?_decimal (n : Nat) : digits? (decimal n) = some n := by
  have hall : (decimal n).all Char.isDigit = true :=
    List.all_eq_true.mpr fun _ h => isDigit_of_mem_decimal h
  simp [digits?, decimal_ne_nil, hall]
  simp [decimal]

/-- A decimal text begins with a digit, so with neither sign. -/
theorem exists_digit_cons_decimal (n : Nat) :
    ∃ c rest, decimal n = c :: rest ∧ c.isDigit = true := by
  cases h : decimal n with
  | nil => exact absurd h (decimal_ne_nil n)
  | cons c rest => exact ⟨c, rest, rfl, isDigit_of_mem_decimal (n := n) (by simp [h])⟩

theorem readNat_decimal {n limit : Nat} (h : n ≤ limit) :
    readNat limit (decimal n) = some n := by
  obtain ⟨c, rest, hcons, hdigit⟩ := exists_digit_cons_decimal n
  have hplus : c ≠ '+' := by rintro rfl; exact absurd hdigit (by decide)
  have hread := digits?_decimal n
  rw [hcons] at hread
  unfold readNat
  rw [hcons]
  split
  · rename_i heq
    exact absurd (List.cons.inj heq).1 hplus
  · simp [hread, h]

theorem readUInt32_decimal (n : UInt32) : readUInt32 (decimal n.toNat) = some n := by
  have h : n.toNat ≤ UInt32.size - 1 := Nat.le_sub_one_of_lt n.toNat_lt
  rw [readUInt32, readNat_decimal h, Option.map_some, UInt32.ofNat_toNat]

theorem readInt_signedDecimal {n low high : Int} (hlow : low ≤ n) (hhigh : n ≤ high) :
    readInt low high (signedDecimal n) = some n := by
  by_cases hneg : n < 0
  · have hvalue : -Int.ofNat n.natAbs = n := by
      rw [Int.ofNat_eq_natCast]
      omega
    rw [signedDecimal, if_pos hneg]
    simp only [readInt, digits?_decimal, Option.map_some, hvalue]
    simp [hlow, hhigh]
  · obtain ⟨c, rest, hcons, hdigit⟩ := exists_digit_cons_decimal n.natAbs
    have hplus : c ≠ '+' := by rintro rfl; exact absurd hdigit (by decide)
    have hminus : c ≠ '-' := by rintro rfl; exact absurd hdigit (by decide)
    have habs : (n.natAbs : Int) = n := by omega
    have hread := digits?_decimal n.natAbs
    rw [hcons] at hread
    unfold readInt
    simp only [signedDecimal, hneg, if_false, hcons]
    split
    · rename_i heq
      exact absurd (List.cons.inj heq).1 hplus
    · rename_i heq
      exact absurd (List.cons.inj heq).1 hminus
    · simp [hread, habs, hlow, hhigh]

end MotifSearch.Text
