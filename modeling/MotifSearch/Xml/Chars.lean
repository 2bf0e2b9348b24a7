/-!
# Character classes of XML

XML allows all characters but most controls and two that are no characters, separates by four
blanks only, and spells names from two classes of characters.

## Main definitions

* `Xml.isBlank`, `Xml.isAllowed` — blanks, and the characters that a document may hold
* `Xml.isNameStart`, `Xml.isNameChar` — the characters of names
-/

namespace MotifSearch.Xml

/-- Whether a character separates. -/
def isBlank (c : Char) : Bool :=
  c == ' ' || c == '\t' || c == '\n' || c == '\r'

/-- Whether a document may hold a character. -/
def isAllowed (c : Char) : Bool :=
  isBlank c || (0x20 ≤ c.toNat && c.toNat != 0xfffe && c.toNat != 0xffff)

/-- The code points that a name may begin with, as closed ranges. -/
def nameStartRanges : List (Nat × Nat) :=
  [
    (0x3a, 0x3a), (0x41, 0x5a), (0x5f, 0x5f), (0x61, 0x7a), (0xc0, 0xd6), (0xd8, 0xf6),
    (0xf8, 0x2ff), (0x370, 0x37d), (0x37f, 0x1fff), (0x200c, 0x200d), (0x2070, 0x218f),
    (0x2c00, 0x2fef), (0x3001, 0xd7ff), (0xf900, 0xfdcf), (0xfdf0, 0xfffd), (0x10000, 0xeffff)
  ]

/-- The further code points that a name may hold, as closed ranges. -/
def nameRestRanges : List (Nat × Nat) :=
  [
    (0x2d, 0x2e), (0x30, 0x39), (0xb7, 0xb7), (0x300, 0x36f), (0x203f, 0x2040)
  ]

/-- Whether a code point lies in one of the ranges. -/
def inRanges (ranges : List (Nat × Nat)) (c : Char) : Bool :=
  ranges.any fun range => range.1 ≤ c.toNat && c.toNat ≤ range.2

/-- Whether a name may begin with a character. -/
def isNameStart (c : Char) : Bool :=
  inRanges nameStartRanges c

/-- Whether a name may hold a character. -/
def isNameChar (c : Char) : Bool :=
  isNameStart c || inRanges nameRestRanges c

end MotifSearch.Xml
