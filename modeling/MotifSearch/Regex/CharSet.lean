/-!
# Sets of characters

The leaves of a match expression: one character, any character of the line, or a bracketed class
of single characters and ranges, possibly negated. Characters are compared by code point.

## Main definitions

* `ClassItem` — a character or a range inside brackets
* `CharSet` — a leaf of a match expression
* `CharSet.contains` — membership
* `CharSet.depth` — how many levels of nesting a leaf counts for
-/

namespace MotifSearch

/-- A member of a bracketed class. -/
inductive ClassItem where
  | single (c : Char)
  | range (low high : Char)
  deriving DecidableEq

/-- Whether a character is one of those an item stands for. -/
def ClassItem.contains : ClassItem → Char → Bool
  | .single c, d => d == c
  | .range low high, d => low ≤ d && d ≤ high

/-- A set of characters that a match expression can name. -/
inductive CharSet where
  /-- One character. -/
  | single (c : Char)
  /-- Every character but the newline. -/
  | inLine
  /-- The characters of a bracketed class. -/
  | oneOf (items : List ClassItem)
  /-- The characters outside a bracketed class, the newline included. -/
  | noneOf (items : List ClassItem)
  deriving DecidableEq

namespace CharSet

/-- Whether a character belongs to a set. -/
def contains : CharSet → Char → Bool
  | single c, d => d == c
  | inLine, d => d != '\n'
  | oneOf items, d => items.any (·.contains d)
  | noneOf items, d => !items.any (·.contains d)

/-- A bracketed class is one level of nesting, and its list of items a second one as soon as
there are two of them. -/
def depth : CharSet → Nat
  | single _ | inLine => 0
  | oneOf items | noneOf items => if items.length > 1 then 2 else 1

end CharSet

end MotifSearch
