/-!
# Texts measured in bytes

Offsets into a score count the bytes of its UTF-8 form. A text itself is a list of characters;
this file gives its length in bytes and its cuts at byte offsets, which exist only where a
character begins or ends.

## Main definitions

* `Text.byteLength` — the number of bytes of a text
* `Text.takeBytes`, `Text.dropBytes` — the two parts of a text around a byte offset
* `Text.byteSlice` — the part of a text between two byte offsets

## Main results

* `byteLength_append` — lengths add up
* `dropBytes_append`, `takeBytes_append` — a text is cut where its first part ends
* `byteSlice_append` — the slice between the ends of the first and the second part
-/

namespace MotifSearch.Text

/-- The number of bytes of the UTF-8 form of a text. -/
def byteLength (text : List Char) : Nat :=
  text.foldr (fun c length => c.utf8Size + length) 0

@[simp] theorem byteLength_nil : byteLength [] = 0 := rfl

@[simp] theorem byteLength_cons (c : Char) (text : List Char) :
    byteLength (c :: text) = c.utf8Size + byteLength text := rfl

@[simp] theorem byteLength_append (first second : List Char) :
    byteLength (first ++ second) = byteLength first + byteLength second := by
  induction first with
  | nil => rw [List.nil_append, byteLength_nil, Nat.zero_add]
  | cons c first ih => rw [List.cons_append, byteLength_cons, byteLength_cons, ih, Nat.add_assoc]

/-- No character is shorter than a byte. -/
theorem length_le_byteLength (text : List Char) : text.length ≤ byteLength text := by
  induction text with
  | nil => exact Nat.le_refl 0
  | cons c text ih =>
    have hpos := c.utf8Size_pos
    rw [List.length_cons, byteLength_cons]
    omega

theorem byteLength_pos {text : List Char} (h : text ≠ []) : 0 < byteLength text :=
  Nat.lt_of_lt_of_le (List.length_pos_iff.mpr h) (length_le_byteLength text)

/-- What follows the first `count` bytes, if a character ends there. -/
def dropBytes (count : Nat) : List Char → Option (List Char)
  | [] => if count = 0 then some [] else none
  | c :: rest =>
    if count = 0 then some (c :: rest)
    else if c.utf8Size ≤ count then dropBytes (count - c.utf8Size) rest
    else none

/-- The first `count` bytes, if a character ends there. -/
def takeBytes (count : Nat) : List Char → Option (List Char)
  | [] => if count = 0 then some [] else none
  | c :: rest =>
    if count = 0 then some []
    else if c.utf8Size ≤ count then (takeBytes (count - c.utf8Size) rest).map (c :: ·)
    else none

/-- The bytes from offset `start` up to offset `stop`, if both lie between characters and the
first is not beyond the second. -/
def byteSlice (start stop : Nat) (text : List Char) : Option (List Char) :=
  if start ≤ stop then (dropBytes start text).bind (takeBytes (stop - start)) else none

theorem dropBytes_append (first second : List Char) :
    dropBytes (byteLength first) (first ++ second) = some second := by
  induction first with
  | nil => cases second <;> simp [dropBytes]
  | cons c rest ih =>
    have hpos := c.utf8Size_pos
    have hne : ¬ (c.utf8Size = 0 ∧ byteLength rest = 0) := by omega
    simp [dropBytes, ih, hne]

theorem takeBytes_append (first second : List Char) :
    takeBytes (byteLength first) (first ++ second) = some first := by
  induction first with
  | nil => cases second <;> simp [takeBytes]
  | cons c rest ih =>
    have hpos := c.utf8Size_pos
    have hne : ¬ (c.utf8Size = 0 ∧ byteLength rest = 0) := by omega
    simp [takeBytes, ih, hne]

theorem byteSlice_append (first second third : List Char) :
    byteSlice (byteLength first) (byteLength (first ++ second)) (first ++ (second ++ third)) =
      some second := by
  simp [byteSlice, dropBytes_append, takeBytes_append]

end MotifSearch.Text
