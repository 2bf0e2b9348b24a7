import MotifSearch.Kern.Marked
import MotifSearch.Proofs.Kern.LineOffsets

/-!
# The bytes of lines

Each line of a score has its range of bytes, and the newline that ends it belongs to it. What a
search reports ends with a newline, so it takes lines of which only the first one may be cut off.

## Main definitions

* `Span.Overlaps` — two ranges have a byte in common
* `Kern.lineStart`, `Kern.lineSpan` — where a line begins, and its bytes
* `Kern.Takes` — a range takes lines up to the end of the last one

## Main results

* `lineOf_ofScore` — the line that is found for a byte of it
* `Takes.overlaps_iff` — the lines that a range has bytes of
* `exists_takes` — a text of lines takes lines
* `exists_eq_append_of_terminatedText` — whole lines within a text of lines
-/

namespace MotifSearch

open Text (byteLength)
open Record (terminatedText terminatedText_cons terminatedText_append)

/-- Whether two ranges have a byte in common. -/
def Span.Overlaps (first second : Span) : Prop :=
  max first.start second.start < min first.stop second.stop

instance (first second : Span) : Decidable (first.Overlaps second) :=
  inferInstanceAs (Decidable (_ < _))

theorem Span.overlaps_iff {first second : Span} :
    first.Overlaps second ↔ ∃ byte, (first.start ≤ byte ∧ byte < first.stop) ∧
      second.start ≤ byte ∧ byte < second.stop := by
  rw [Overlaps]
  constructor
  · intro h
    exact ⟨max first.start second.start, by omega⟩
  · rintro ⟨byte, hfirst, hsecond⟩
    omega

namespace Kern

/-- The offset at which a line begins. -/
def lineStart (score : List Char) (line : Nat) : Nat :=
  byteLength (terminatedText ((lines score).take line))

/-- The bytes of a line. It goes up to where the next line begins, and the last one ends with the
score. -/
def lineSpan (score : List Char) (line : Nat) : Span :=
  ⟨lineStart score line, min (lineStart score (line + 1)) (byteLength score)⟩

variable {score : List Char} {line next : Nat}

theorem lineStart_succ (h : line < (lines score).length) :
    lineStart score (line + 1) = lineStart score line + byteLength (lines score)[line] + 1 := by
  have hnewline : byteLength (terminatedText [(lines score)[line]]) =
      byteLength (lines score)[line] + 1 := by
    rw [terminatedText_cons, Text.byteLength_append]
    rfl
  rw [lineStart, lineStart, List.take_succ_eq_append_getElem h, terminatedText_append,
    Text.byteLength_append, hnewline, Nat.add_assoc]

theorem lineStart_of_eq_append {first rest : List (List Char)} (h : lines score = first ++ rest) :
    lineStart score first.length = byteLength (terminatedText first) := by
  rw [lineStart, h, List.take_left]

theorem lineStart_mono (h : line ≤ next) : lineStart score line ≤ lineStart score next := by
  obtain ⟨more, hmore⟩ := List.take_prefix_take_left (l := lines score) h
  rw [lineStart, lineStart, ← hmore, terminatedText_append, Text.byteLength_append]
  exact Nat.le_add_right _ _

/-- What begins within a line begins before all later lines. -/
theorem le_of_lineStart_lt (h : lineStart score line < lineStart score (next + 1)) :
    line ≤ next := by
  apply Nat.le_of_not_lt
  intro hlt
  exact absurd (lineStart_mono hlt) (Nat.not_le.mpr h)

/-- Each line but the last one is ended by a newline of the score. -/
theorem lineStart_le (h : line < (lines score).length) :
    lineStart score line ≤ byteLength score := by
  obtain ⟨tail, hscore, -⟩ := Record.exists_terminatedText score
  have htake : (lines score).dropLast.take line = (lines score).take line := by
    rw [List.dropLast_eq_take, List.take_take, Nat.min_eq_left (by omega)]
  calc
    lineStart score line ≤ byteLength (terminatedText ((lines score).dropLast.take line)) +
        byteLength (terminatedText ((lines score).dropLast.drop line) ++ tail) := by
      rw [htake]
      exact Nat.le_add_right _ _
    _ = byteLength score := by
      rw [← Text.byteLength_append, Record.terminatedText_take_drop, ← hscore]

/-- The first line of a text. -/
theorem lines_append_newline {first : List Char} (h : '\n' ∉ first) (rest : List Char) :
    lines (first ++ '\n' :: rest) = first :: lines rest := by
  induction first with
  | nil =>
    rw [lines, List.nil_append, List.splitOn_cons_eq_if_modifyHead]
    rfl
  | cons c first ih =>
    rw [List.mem_cons, not_or] at h
    have hc : ¬ (c == '\n') = true := fun heq => h.1 (beq_iff_eq.mp heq).symm
    have hrest := ih h.2
    rw [lines] at hrest ⊢
    rw [List.cons_append, List.splitOn_cons_eq_if_modifyHead, if_neg hc, hrest,
      List.modifyHead_cons]

/-- The lines of a text that begins with whole lines. -/
theorem lines_terminatedText {whole : List (List Char)} (h : ∀ line ∈ whole, '\n' ∉ line)
    (rest : List Char) : lines (terminatedText whole ++ rest) = whole ++ lines rest := by
  induction whole with
  | nil => rfl
  | cons first whole ih =>
    obtain ⟨hfirst, hwhole⟩ := List.forall_mem_cons.mp h
    rw [terminatedText_cons, List.append_assoc, List.cons_append, lines_append_newline hfirst,
      ih hwhole, List.cons_append]

/-- Whole lines that stand in a text of lines, beginning with a line, are some of these lines. -/
theorem exists_eq_append_of_terminatedText {whole part : List (List Char)}
    {before after : List Char} (hwhole : ∀ line ∈ whole, '\n' ∉ line)
    (hpart : ∀ line ∈ part, '\n' ∉ line) (hbefore : lineStartAfter true before = true)
    (htext : terminatedText whole = before ++ (terminatedText part ++ after)) :
    ∃ first rest, whole = first ++ (part ++ rest) ∧ before = terminatedText first := by
  obtain ⟨tail, hsplit, htail, hfirst⟩ := Record.exists_terminatedText before
  generalize (lines before).dropLast = first at hsplit hfirst
  subst hsplit
  rw [lineStartAfter_append, Record.lineStartAfter_terminatedText] at hbefore
  obtain ⟨-, rfl⟩ := eq_nil_of_lineStartAfter hbefore htail
  rw [List.append_nil] at htext ⊢
  -- Both sides of the text have the same lines, the last one of which holds nothing.
  have hlines := congrArg lines htext
  rw [← List.append_nil (terminatedText whole), lines_terminatedText hwhole,
    lines_terminatedText hfirst, lines_terminatedText hpart] at hlines
  have hnil : lines [] = [[]] := rfl
  have hafter : lines after ≠ [] := List.splitOn_ne_nil '\n' after
  refine ⟨first, (lines after).dropLast, ?_, rfl⟩
  have hlast := congrArg List.dropLast hlines
  rwa [hnil, List.dropLast_concat, ← List.append_assoc,
    List.dropLast_append_of_ne_nil hafter, List.append_assoc] at hlast

/-- The lines before an offset within a line. -/
private theorem linesBefore_of_lineStart {whole : List (List Char)} {offset : Nat}
    (hline : line < whole.length) (hstart : byteLength (terminatedText (whole.take line)) ≤ offset)
    (hstop : offset < byteLength (terminatedText (whole.take (line + 1)))) :
    linesBefore whole offset = line := by
  induction whole generalizing offset line with
  | nil => cases hline
  | cons first whole ih =>
    have hsize : '\n'.utf8Size = 1 := rfl
    rw [linesBefore]
    cases line with
    | zero =>
      simp only [List.take_succ_cons, List.take_zero, terminatedText_cons, Text.byteLength_append,
        Text.byteLength_cons, Record.terminatedText_nil, Text.byteLength_nil, hsize] at hstop
      exact if_pos (by omega)
    | succ line =>
      simp only [List.take_succ_cons, terminatedText_cons, Text.byteLength_append,
        Text.byteLength_cons, hsize] at hstart hstop
      rw [if_neg (by omega), ih (Nat.lt_of_succ_lt_succ hline) (by omega) (by omega)]

/-- The line of a byte is found, unless an empty line comes before it or is that line. -/
theorem lineOf_ofScore {offset : Nat} (hline : line < (lines score).length)
    (hstart : lineStart score line ≤ offset) (hstop : offset < lineStart score (line + 1)) :
    (LineMap.ofScore score).lineOf offset =
      match (lines score).findIdx? List.isEmpty with
      | some empty => if empty ≤ line then .error (.emptyLine empty) else .ok line
      | none => .ok line := by
  obtain rfl := linesBefore_of_lineStart hline hstart hstop
  exact (LineMap.lineOf_eq score offset).trans (if_pos hline)

/-- A range that takes lines up to the end of the last one. The first line may be cut off, and the
last one is not empty. -/
structure Takes (score : List Char) (span : Span) (first last : Nat) : Prop where
  le : first ≤ last
  last_lt : last + 1 < (lines score).length
  start_ge : lineStart score first ≤ span.start
  start_lt : span.start < lineStart score (first + 1)
  stop_eq : span.stop = lineStart score (last + 1)
  stop_ge : lineStart score last + trailingBytes ≤ span.stop
  length_ge : span.start + trailingBytes ≤ span.stop

namespace Takes

variable {span other : Span} {first last otherFirst otherLast : Nat}

theorem start_lt_stop (h : Takes score span first last) : span.start < span.stop := by
  rw [h.stop_eq]
  exact Nat.lt_of_lt_of_le h.start_lt (lineStart_mono (Nat.add_le_add_right h.le 1))

theorem stop_le (h : Takes score span first last) : span.stop ≤ byteLength score := by
  rw [h.stop_eq]
  exact lineStart_le h.last_lt

/-- The lines that a range has bytes of are those that it takes. -/
theorem overlaps_iff (h : Takes score span first last) :
    (lineSpan score line).Overlaps span ↔ first ≤ line ∧ line ≤ last := by
  have hstart := h.start_ge
  have hlt := h.start_lt
  have hstop := h.stop_eq
  have hstop_le := h.stop_le
  have hspan := h.start_lt_stop
  rw [Span.Overlaps, lineSpan]
  dsimp only
  constructor
  · intro hoverlaps
    have hfirst : lineStart score first < lineStart score (line + 1) := by omega
    have hlast : lineStart score line < lineStart score (last + 1) := by omega
    exact ⟨le_of_lineStart_lt hfirst, le_of_lineStart_lt hlast⟩
  · rintro ⟨hfirst, hlast⟩
    have hnext := lineStart_succ (Nat.lt_of_le_of_lt hlast (Nat.lt_of_succ_lt h.last_lt))
    have hfirst := @lineStart_mono score _ _ (Nat.add_le_add_right hfirst 1)
    have hlast := @lineStart_mono score _ _ (Nat.add_le_add_right hlast 1)
    omega

/-- Ranges that come one after the other have no line in common. -/
theorem last_lt_first (h : Takes score span first last)
    (hother : Takes score other otherFirst otherLast) (hle : span.stop ≤ other.start) :
    last < otherFirst := by
  have hstop := h.stop_eq
  have hstart := hother.start_lt
  have hlt : lineStart score (last + 1) < lineStart score (otherFirst + 1) := by omega
  exact le_of_lineStart_lt hlt

end Takes

/-- A text of lines that are not empty takes lines. -/
theorem exists_takes {before after part : List Char} {whole : List (List Char)}
    (hscore : score = before ++ (terminatedText (part :: whole) ++ after))
    (hlines : ∀ line ∈ part :: whole, line ≠ [] ∧ '\n' ∉ line) :
    ∃ first, Takes score ⟨byteLength before, byteLength (before ++ terminatedText (part :: whole))⟩
      first (first + whole.length) := by
  obtain ⟨tail, hbefore, htail, hdone⟩ := Record.exists_terminatedText before
  generalize (lines before).dropLast = done at hbefore hdone
  subst hbefore
  obtain ⟨⟨hne, hpart⟩, hwhole⟩ := List.forall_mem_cons.mp hlines
  -- The lines of the score: those before, those taken, the first of them completed, and the others.
  have hall : lines score = done ++ ((tail ++ part) :: whole) ++ lines after := by
    have hfirst : '\n' ∉ tail ++ part := by simp [htail, hpart]
    rw [hscore, List.append_assoc, lines_terminatedText hdone, terminatedText_cons,
      List.append_assoc, List.cons_append, ← List.append_assoc tail, lines_append_newline hfirst,
      lines_terminatedText fun line hline => (hwhole line hline).2]
    simp
  have hstart : lineStart score done.length = byteLength (terminatedText done) :=
    lineStart_of_eq_append (hall.trans (List.append_assoc ..))
  have hlengths : (done ++ ((tail ++ part) :: whole)).length = done.length + whole.length + 1 := by
    simp only [List.length_append, List.length_cons]
    omega
  have hstop : lineStart score (done.length + whole.length + 1) =
      byteLength (terminatedText done ++ tail ++ terminatedText (part :: whole)) := by
    rw [← hlengths, lineStart_of_eq_append hall, terminatedText_append, terminatedText_cons,
      terminatedText_cons]
    simp only [Text.byteLength_append]
    omega
  have hafter : 0 < (lines after).length :=
    List.length_pos_iff.mpr (List.splitOn_ne_nil '\n' after)
  have hlast : done.length + whole.length + 1 < (lines score).length := by
    rw [hall, List.length_append, hlengths]
    omega
  refine ⟨done.length, Nat.le_add_right _ _, hlast, ?_, ?_, hstop.symm, ?_, ?_⟩
  · rw [hstart, Text.byteLength_append]
    exact Nat.le_add_right _ _
  · have hfirst : done.length < (lines score).length := by omega
    have hline : (lines score)[done.length] = tail ++ part := by
      simp [hall]
    rw [lineStart_succ hfirst, hline, hstart]
    simp only [Text.byteLength_append]
    omega
  · have hmem : ∀ h : done.length + whole.length < (lines score).length,
        (lines score)[done.length + whole.length] ∈ (tail ++ part) :: whole := by
      rw [hall]
      intro h
      rw [List.getElem_append_left (by rw [hlengths]; omega),
        List.getElem_append_right (Nat.le_add_right _ _)]
      exact List.getElem_mem _
    have htaken : ∀ line ∈ (tail ++ part) :: whole, line ≠ [] := by
      rw [List.forall_mem_cons]
      exact ⟨List.append_ne_nil_of_right_ne_nil tail hne, fun line hline => (hwhole line hline).1⟩
    have hpos := Text.byteLength_pos (htaken _ (hmem (by omega)))
    rw [← hstop, lineStart_succ (by omega), trailingBytes]
    dsimp only
    omega
  · have hpos := Text.byteLength_pos hne
    have hsize : '\n'.utf8Size = 1 := rfl
    simp only [Text.byteLength_append, Text.byteLength_cons, terminatedText_cons, hsize,
      trailingBytes]
    omega

end Kern

end MotifSearch
