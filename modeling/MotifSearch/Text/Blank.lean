/-!
# Blank characters and trimming

Attribute values, counts and settings texts may carry blanks at both ends, which mean nothing.
"Blank" is the Unicode property `White_Space`; the zero-width space and the byte order mark
do not have it.

## Main definitions

* `Text.isBlank` — whether a character has the property
* `Text.trimStart`, `Text.trim` — a text without its blanks at the front, at both ends

## Main results

* `isBlank_of_isWhitespace` — every ASCII blank is a blank
* `trim_eq_self` — a text that neither begins nor ends with a blank is left alone
-/

namespace MotifSearch.Text

/-- Whether a character has the Unicode property `White_Space`. -/
def isBlank (c : Char) : Bool :=
  let code := c.toNat
  (0x09 ≤ code && code ≤ 0x0d) || code == 0x20 || code == 0x85 || code == 0xa0 ||
    code == 0x1680 || (0x2000 ≤ code && code ≤ 0x200a) || code == 0x2028 || code == 0x2029 ||
    code == 0x202f || code == 0x205f || code == 0x3000

theorem isBlank_of_isWhitespace {c : Char} (h : c.isWhitespace = true) : isBlank c = true := by
  simp only [Char.isWhitespace, Bool.or_eq_true, decide_eq_true_eq] at h
  rcases h with ((rfl | rfl) | rfl) | rfl <;> decide

/-- A text without the blanks it begins with. -/
def trimStart (text : List Char) : List Char :=
  text.dropWhile isBlank

/-- A text without the blanks at both ends. -/
def trim (text : List Char) : List Char :=
  ((trimStart text).reverse.dropWhile isBlank).reverse

@[simp] theorem trim_nil : trim [] = [] := rfl

/-- A text that neither begins nor ends with a blank is left alone. -/
theorem trim_eq_self {text : List Char}
    (first : ∀ c ∈ text.head?, isBlank c = false)
    (last : ∀ c ∈ text.getLast?, isBlank c = false) : trim text = text := by
  have hfirst : text.dropWhile isBlank = text := by
    cases text with
    | nil => rfl
    | cons c rest => simp [first c (by simp)]
  have hlast : text.reverse.dropWhile isBlank = text.reverse := by
    cases h : text.reverse with
    | nil => rfl
    | cons c rest =>
      have hc : text.getLast? = some c := by
        rw [← List.head?_reverse, h]; rfl
      simp [last c (by simp [hc])]
  simp [trim, trimStart, hfirst, hlast]

end MotifSearch.Text
