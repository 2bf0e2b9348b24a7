import MotifSearch.Proofs.Kern.LineSpans
import MotifSearch.Proofs.Pattern.Lines
import MotifSearch.Proofs.Record.Notes

/-!
# The shape of what a search reports

Whatever the pattern, a search reports ranges that consist of lines. Only the first one of them may
be cut off, at a tab. Of several lines, the last one is never a record without notes. No two ranges
have a line in common, because each of them takes its last line to the end.

## Main definitions

* `Span.OnLines` — a range of a score that consists of lines

## Main results

* `onLines_of_mem_locate` — what a search for a pattern reports consists of lines
* `spans_locate` — the order and the shape of what is reported
-/

namespace MotifSearch

open Text (byteLength)
open Record (terminatedText terminatedText_cons terminatedText_append)

/-- A range of a score that consists of the given lines, each with its newline. -/
structure Span.OnLines (span : Span) (score before : List Char) (lines : List (List Char))
    (after : List Char) : Prop where
  score_eq : score = before ++ (terminatedText lines ++ after)
  span_eq : span = ⟨byteLength before, byteLength (before ++ terminatedText lines)⟩
  lines_ne : ∀ line ∈ lines, line ≠ [] ∧ '\n' ∉ line
  /-- The first line begins with the range, or a column of it does. -/
  start : lineStartAfter true before = true ∨ (terminatedText lines).head? = some '\t'
  length : 3 ≤ span.length
  /-- Of several lines, the last one is not a record without notes. -/
  last : 1 < lines.length → ∀ line, lines.getLast? = some line → ∀ c ∈ line.head?,
    c ∉ ['.', '!', '*', '=']

namespace Span.OnLines

variable {span : Span} {score before after : List Char} {lines : List (List Char)}

theorem exists_takes (h : span.OnLines score before lines after) :
    ∃ first last, Kern.Takes score span first last := by
  cases lines with
  | nil =>
    have hlength := h.length
    rw [h.span_eq, Record.terminatedText_nil, List.append_nil, Span.length, Nat.sub_self] at hlength
    omega
  | cons part whole =>
    obtain ⟨first, htakes⟩ := Kern.exists_takes h.score_eq h.lines_ne
    rw [h.span_eq]
    exact ⟨first, _, htakes⟩

end Span.OnLines

/-- No preferred match of several lines ends with a record without notes. -/
private theorem not_control_of_preferred {pattern : Pattern} {atLineStart : Bool}
    {lines : List (List Char)} {line after : List Char} (hne : lines ≠ []) (hline : '\n' ∉ line)
    (hlength : pattern.syntaxTree.factored.preferredLength atLineStart
      (terminatedText (lines ++ [line]) ++ after) =
        some (terminatedText (lines ++ [line])).length) : Record.isControl line = false := by
  rw [← Bool.not_eq_true]
  intro hcontrol
  have hbefore : terminatedText lines ≠ [] ∧
      lineStartAfter atLineStart (terminatedText lines) = true := by
    cases lines with
    | nil => exact absurd rfl hne
    | cons first lines => simp
  rw [terminatedText_append, List.append_assoc, List.length_append] at hlength
  refine Regex.preferredLength_ne_of_control pattern.leads_factored
    ((Record.isControl_iff hline).mp hcontrol) hbefore.1 hbefore.2 after ?_
  simpa using hlength

section Locate

variable {pattern : Pattern} {score : List Char} {spans : List Span}
variable (h : locate score pattern.compile.expression = .ok spans)
include h

theorem eq_spansFrom_of_locate : spans = pattern.syntaxTree.factored.spansFrom 0 true 0 score :=
  (exists_of_locate h).1.symm

/-- What is reported comes in order, and nothing overlaps. -/
theorem pairwise_of_locate : spans.Pairwise fun first second => first.stop ≤ second.start := by
  rw [eq_spansFrom_of_locate h]
  exact Regex.pairwise_spansFrom _ _ _ _ _

/-- What a search for a pattern reports consists of lines. -/
theorem onLines_of_mem_locate {span : Span} (hspan : span ∈ spans) :
    ∃ before lines after, span.OnLines score before lines after := by
  rw [eq_spansFrom_of_locate h] at hspan
  obtain ⟨before, word, after, hscore, hbounds, hne, hlength⟩ :=
    Regex.exists_preferred_of_mem_spansFrom hspan
  have htakes := Pattern.takesLines_of_preferredLength hlength
  obtain ⟨lines, rfl, hlines⟩ := htakes.lines
  rw [Nat.zero_add, Nat.zero_add] at hbounds
  refine ⟨before, lines, after, hscore, hbounds, hlines, htakes.start hne, ?_, ?_⟩
  · have hbytes := htakes.length hne
    rw [hbounds, Span.length, Text.byteLength_append, Nat.add_sub_cancel_left]
    exact hbytes
  · -- The last of several lines, with the lines before it.
    intro hmany line hlast c hc
    obtain ⟨others, rfl⟩ := List.getLast?_eq_some_iff.mp hlast
    have hothers : others ≠ [] := by
      rintro rfl
      exact absurd hmany (Nat.lt_irrefl 1)
    have hcontrol := not_control_of_preferred hothers (hlines line (by simp)).2 hlength
    rw [Record.isControl, Option.mem_def.mp hc, Option.any_some] at hcontrol
    intro hmem
    rw [Record.contains_controls.mpr (by simpa using hmem)] at hcontrol
    cases hcontrol

theorem exists_takes_of_locate (span : Span) (hspan : span ∈ spans) :
    ∃ first last, Kern.Takes score span first last := by
  obtain ⟨_, _, _, honLines⟩ := onLines_of_mem_locate h hspan
  exact honLines.exists_takes

end Locate

/-- What a search for a pattern reports is in order and consists of lines, and no line of the score
has bytes of two different ranges. -/
theorem spans_locate (pattern : Pattern) (score : List Char) {spans : List Span}
    (h : locate score pattern.compile.expression = .ok spans) :
    (spans.Pairwise fun first second => first.start < second.start ∧ first.stop ≤ second.start) ∧
      (∀ span ∈ spans, ∃ before lines after, span.OnLines score before lines after) ∧
      ∀ first ∈ spans, ∀ second ∈ spans, ∀ line, (Kern.lineSpan score line).Overlaps first →
        (Kern.lineSpan score line).Overlaps second → first = second := by
  have htakes : ∀ span ∈ spans, ∃ first last, Kern.Takes score span first last := by
    intro span hspan
    obtain ⟨before, lines, after, honLines⟩ := onLines_of_mem_locate h hspan
    exact honLines.exists_takes
  refine ⟨?_, fun span hspan => onLines_of_mem_locate h hspan, ?_⟩
  · refine (pairwise_of_locate h).imp_of_mem fun {first second} hfirst _ hle => ⟨?_, hle⟩
    obtain ⟨_, _, hfirst⟩ := htakes first hfirst
    exact Nat.lt_of_lt_of_le hfirst.start_lt_stop hle
  · -- Of two ranges one comes first, and the lines that it takes come before those of the other.
    intro first hfirst second hsecond line hline hother
    obtain ⟨i, hi, rfl⟩ := List.mem_iff_getElem.mp hfirst
    obtain ⟨j, hj, rfl⟩ := List.mem_iff_getElem.mp hsecond
    obtain ⟨_, _, hfirst⟩ := htakes _ hfirst
    obtain ⟨_, _, hsecond⟩ := htakes _ hsecond
    have hordered := List.pairwise_iff_getElem.mp (pairwise_of_locate h)
    have hline := hfirst.overlaps_iff.mp hline
    have hother := hsecond.overlaps_iff.mp hother
    rcases Nat.lt_trichotomy i j with hlt | rfl | hlt
    · have hlast := hfirst.last_lt_first hsecond (hordered i j hi hj hlt)
      omega
    · rfl
    · have hlast := hsecond.last_lt_first hfirst (hordered j i hj hi hlt)
      omega

/-- A note in the first column of one line and in the second column of the next one: the two matches
have no line in common. -/
theorem spans_locate_two_columns :
    locate "4c\n4e\t4c\n".toList (Pattern.quarterNote .c).compile.expression =
        .ok [⟨0, 3⟩, ⟨5, 9⟩] ∧
      ∀ line, ¬ ((Kern.lineSpan "4c\n4e\t4c\n".toList line).Overlaps ⟨0, 3⟩ ∧
        (Kern.lineSpan "4c\n4e\t4c\n".toList line).Overlaps ⟨5, 9⟩) := by
  have hlocate : locate "4c\n4e\t4c\n".toList (Pattern.quarterNote .c).compile.expression =
      .ok [⟨0, 3⟩, ⟨5, 9⟩] := rfl
  obtain ⟨-, -, hapart⟩ := spans_locate (Pattern.quarterNote .c) _ hlocate
  refine ⟨hlocate, fun line hline => ?_⟩
  exact absurd (hapart ⟨0, 3⟩ (by simp) ⟨5, 9⟩ (by simp) line hline.1 hline.2) (by decide)

end MotifSearch
