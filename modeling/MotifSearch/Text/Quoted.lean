import MotifSearch.Text.Printed

/-!
# Quoted texts

Error messages quote the value they complain about: in double quotes, with a backslash before a
quote or a backslash, with letters for the usual controls, and with the hexadecimal code point in
braces for every other character that does not print.

## Main definitions

* `Text.quoteChar` — one character inside the quotes
* `Text.quote` — a text in quotes

## Main results

* `quote_eq_self_of_plain` — a text of plain characters is only put between quotes
-/

namespace MotifSearch.Text

/-- How a quoted text shows one character. -/
def quoteChar (c : Char) : List Char :=
  if c = '"' then ['\\', '"']
  else if c = '\\' then ['\\', '\\']
  else if c = '\n' then ['\\', 'n']
  else if c = '\r' then ['\\', 'r']
  else if c = '\t' then ['\\', 't']
  else if c = '\x00' then ['\\', '0']
  else if isPrinted c then [c]
  else ['\\', 'u', '\x7b'] ++ Nat.toDigits 16 c.toNat ++ ['\x7d']

/-- A text in double quotes, with what does not print shown by escapes. -/
def quote (text : List Char) : List Char :=
  '"' :: text.flatMap quoteChar ++ ['"']

/-- A text of printed characters that holds neither a quote nor a backslash is only put between
quotes. -/
theorem quote_eq_self_of_plain {text : List Char}
    (plain : ∀ c ∈ text, isPrinted c = true ∧ c ≠ '"' ∧ c ≠ '\\') :
    quote text = '"' :: text ++ ['"'] := by
  have hbody : text.flatMap quoteChar = text := by
    induction text with
    | nil => rfl
    | cons c rest ih =>
      obtain ⟨hprint, hquote, hslash⟩ := plain c (by simp)
      have hcontrol : ∀ d : Char, d.toNat < 0x20 → c ≠ d := by
        rintro d hd rfl
        simp only [isPrinted, Bool.and_eq_true, decide_eq_true_eq] at hprint
        omega
      have hc : quoteChar c = [c] := by
        simp [quoteChar, hquote, hslash, hprint, hcontrol '\n' (by decide),
          hcontrol '\r' (by decide), hcontrol '\t' (by decide), hcontrol '\x00' (by decide)]
      rw [List.flatMap_cons, hc, ih fun d hd => plain d (by simp [hd])]
      rfl
  rw [quote, hbody]

end MotifSearch.Text
