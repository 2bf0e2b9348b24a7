import MotifSearch.Text.Bytes

/-!
# Byte ranges of a text

A span is a half-open range of byte offsets. Spans that a search reports lie inside their text,
but a span may also be given from outside, so none of its operations relies on that.

## Main definitions

* `Span` — a byte range
* `Span.length`, `Span.isEmpty` — its size
* `Span.slice` — the part of a text it covers, if it covers one
-/

namespace MotifSearch

/-- A range of byte offsets, the last one not included. -/
structure Span where
  start : Nat
  stop : Nat
  deriving DecidableEq

namespace Span

/-- The number of bytes in the range; none when it is reversed. -/
def length (span : Span) : Nat :=
  span.stop - span.start

/-- Whether the range holds no byte. -/
def isEmpty (span : Span) : Bool :=
  span.length == 0

/-- The part of a text that the range covers, if its ends lie between characters of the text. -/
def slice (span : Span) (text : List Char) : Option (List Char) :=
  Text.byteSlice span.start span.stop text

end Span

end MotifSearch
