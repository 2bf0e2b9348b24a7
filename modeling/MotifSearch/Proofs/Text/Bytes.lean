import Mathlib.Data.List.Infix
import Mathlib.Tactic.SplitIfs
import MotifSearch.Text.Bytes

/-!
# The bytes of texts

Texts are compared character by character. The bytes of their UTF-8 forms are in the same order: a
form of more bytes begins with a larger byte, and forms of equally many bytes are compared as the
digits of the two numbers, to the base 64.

## Main definitions

* `Text.utf8` — the bytes of a text

## Main results

* `digits_lt_of_lt` — how the digits of a smaller number compare
* `utf8EncodeChar_append_lt` — the first character that differs decides
* `utf8_lt_utf8` — a smaller text has smaller bytes
-/

namespace MotifSearch.Text

/-- The bytes of the UTF-8 form of a text. -/
def utf8 (text : List Char) : List UInt8 :=
  text.flatMap String.utf8EncodeChar

@[simp] theorem utf8_nil : utf8 [] = [] := rfl

@[simp] theorem utf8_cons (c : Char) (text : List Char) :
    utf8 (c :: text) = String.utf8EncodeChar c ++ utf8 text := rfl

theorem utf8_append (first second : List Char) :
    utf8 (first ++ second) = utf8 first ++ utf8 second :=
  List.flatMap_append

theorem length_utf8 (text : List Char) : (utf8 text).length = byteLength text := by
  induction text with
  | nil => rfl
  | cons c text ih =>
    rw [utf8_cons, List.length_append, String.length_utf8EncodeChar, byteLength_cons, ih]

section Digits

variable {m n : Nat}

/-- The last digit decides only between numbers that are otherwise the same. -/
theorem lastDigit_lt_of_lt (h : m < n) : m / 64 < n / 64 ∨ m / 64 = n / 64 ∧ m % 64 < n % 64 := by
  omega

/-- The first of four digits that differs decides. -/
theorem digits_lt_of_lt (h : m < n) :
    m / 262144 < n / 262144 ∨ m / 262144 = n / 262144 ∧
      (m / 4096 % 64 < n / 4096 % 64 ∨ m / 4096 % 64 = n / 4096 % 64 ∧
        (m / 64 % 64 < n / 64 % 64 ∨ m / 64 % 64 = n / 64 % 64 ∧ m % 64 < n % 64)) := by
  have hdivide : ∀ n, n / 4096 = n / 64 / 64 ∧ n / 262144 = n / 64 / 64 / 64 := by omega
  rw [(hdivide m).1, (hdivide m).2, (hdivide n).1, (hdivide n).2]
  rcases lastDigit_lt_of_lt h with h₁ | ⟨h₁, h₀⟩
  · rcases lastDigit_lt_of_lt h₁ with h₂ | ⟨h₂, h₁⟩
    · rcases lastDigit_lt_of_lt h₂ with h₃ | ⟨h₃, h₂⟩
      · exact .inl h₃
      · exact .inr ⟨h₃, .inl h₂⟩
    · exact .inr ⟨by rw [h₂], .inr ⟨by rw [h₂], .inl h₁⟩⟩
  · exact .inr ⟨by rw [h₁], .inr ⟨by rw [h₁], .inr ⟨by rw [h₁], h₀⟩⟩⟩

end Digits

section Bytes

variable {m n : Nat} (hm : m < 256) (hn : n < 256)
include hm hn

theorem ofNat_lt_ofNat_iff : UInt8.ofNat m < UInt8.ofNat n ↔ m < n := by
  rw [UInt8.lt_iff_toNat_lt, UInt8.toNat_ofNat_of_lt' hm, UInt8.toNat_ofNat_of_lt' hn]

theorem ofNat_eq_ofNat_iff : UInt8.ofNat m = UInt8.ofNat n ↔ m = n := by
  rw [← UInt8.toNat_inj, UInt8.toNat_ofNat_of_lt' hm, UInt8.toNat_ofNat_of_lt' hn]

end Bytes

/-- Of two texts that differ in their first characters, the one with the smaller character has the
smaller bytes, whatever follows. -/
theorem utf8EncodeChar_append_lt {c d : Char} (h : c < d) (first second : List UInt8) :
    String.utf8EncodeChar c ++ first < String.utf8EncodeChar d ++ second := by
  have hlt : c.val.toNat < d.val.toNat := h
  have hd : d.val.toNat < 0x110000 := by
    have hvalid := d.valid
    simp only [UInt32.isValidChar, Nat.isValidChar] at hvalid
    change d.val.toNat < _
    omega
  have hdigits := digits_lt_of_lt hlt
  -- No character needs more than four digits.
  have hc₃ : c.val.toNat / 262144 % 8 = c.val.toNat / 262144 := Nat.mod_eq_of_lt (by omega)
  have hd₃ : d.val.toNat / 262144 % 8 = d.val.toNat / 262144 := Nat.mod_eq_of_lt (by omega)
  simp only [String.utf8EncodeChar, hc₃, hd₃]
  -- Each of the two forms has one of four lengths, and each length its own range of first bytes.
  split_ifs <;>
    simp (disch := omega) only [List.cons_append, List.nil_append, List.cons_lt_cons_iff,
      ofNat_lt_ofNat_iff, ofNat_eq_ofNat_iff] <;>
    omega

/-- A smaller text has smaller bytes. -/
theorem utf8_lt_utf8 {first second : List Char} (h : first < second) :
    utf8 first < utf8 second := by
  induction first generalizing second with
  | nil =>
    cases second with
    | nil => exact absurd h (List.lt_irrefl [])
    | cons d rest =>
      obtain ⟨byte, bytes, hbytes⟩ :=
        List.exists_cons_of_ne_nil (String.utf8EncodeChar_ne_nil : String.utf8EncodeChar d ≠ [])
      rw [utf8_nil, utf8_cons, hbytes]
      exact List.nil_lt_cons byte _
  | cons c first ih =>
    cases second with
    | nil => exact absurd h (List.not_lt_nil _)
    | cons d second =>
      rcases List.cons_lt_cons_iff.mp h with hlt | ⟨rfl, hlt⟩
      · exact utf8EncodeChar_append_lt hlt _ _
      · exact List.append_left_lt (ih hlt)

end MotifSearch.Text
