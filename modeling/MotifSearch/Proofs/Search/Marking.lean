import MotifSearch.Proofs.Kern.Touched
import MotifSearch.Proofs.Search.SpanShape

/-!
# Marking what a search reports

A span is marked from the line of its first byte to the line of the byte two before its end. What a
search for a pattern reports takes its last line to the end, and that line is not empty, so that
these are just the lines of which the span has bytes. Marking fails only where an empty line comes
before one of them.

## Main definitions

* `Kern.hasBytesOf` — a line has bytes of one of the spans
* `EmptyLineBefore` — an empty line comes before the last line of the last span
* `exactlyMarked` — a score with the lines marked of which spans have bytes

## Main results

* `Kern.Takes.lineOf_eq_ok` — the lines that a span touches
* `markSpans_eq_ok_iff` — when spans can be marked
* `markScore_compile` — a score is marked exactly, unless an empty line comes before a match
-/

namespace MotifSearch

open Kern (Takes lines lineSpan)

/-- Whether a line has bytes of one of the spans. -/
def Kern.hasBytesOf (score : List Char) (spans : List Span) (line : Nat) : Bool :=
  spans.any fun span => (lineSpan score line).Overlaps span

/-- Whether an empty line comes before the last line of the last span. -/
def EmptyLineBefore (score : List Char) (spans : List Span) : Prop :=
  ∃ span empty line, spans.getLast? = some span ∧ (lineSpan score line).Overlaps span ∧
    empty < line ∧ (lines score)[empty]? = some []

/-- A score with a marker at the end of each line that has bytes of one of the spans, unless the
line begins with a dot. -/
def exactlyMarked (score : List Char) (spans : List Span) (marker : Char) : MarkedScore where
  lines := (lines score).mapIdx fun line text =>
    if Kern.hasBytesOf score spans line ∧ text.head? ≠ some '.' then text ++ [marker] else text
  touched := (List.range (lines score).length).filter (Kern.hasBytesOf score spans)
  marker := marker

variable {score : List Char} {spans : List Span} {marker : Char}

section Takes

variable {span : Span} {first last empty : Nat}

/-- The two lines that are looked up are the first and the last one that a span takes, unless the
first empty line of the score is one of them or comes before them. -/
theorem Kern.Takes.lineOf_start (h : Takes score span first last) :
    (LineMap.ofScore score).lineOf span.start =
      match (lines score).findIdx? List.isEmpty with
      | some empty => if empty ≤ first then .error (.emptyLine empty) else .ok first
      | none => .ok first := by
  have hle := h.le
  have hlast := h.last_lt
  exact Kern.lineOf_ofScore (by omega) h.start_ge h.start_lt

theorem Kern.Takes.lineOf_stop (h : Takes score span first last) :
    (LineMap.ofScore score).lineOf (span.stop - trailingBytes) =
      match (lines score).findIdx? List.isEmpty with
      | some empty => if empty ≤ last then .error (.emptyLine empty) else .ok last
      | none => .ok last := by
  have hbefore : Kern.lineStart score last ≤ span.stop - trailingBytes :=
    Nat.le_sub_of_add_le h.stop_ge
  have hwithin : span.stop - trailingBytes < Kern.lineStart score (last + 1) := by
    have hstart := h.start_lt_stop
    rw [← h.stop_eq, trailingBytes]
    omega
  exact Kern.lineOf_ofScore (Nat.lt_of_succ_lt h.last_lt) hbefore hwithin

theorem Kern.Takes.not_isShort (h : Takes score span first last) : ¬ span.IsShort :=
  Span.not_isShort h.length_ge

/-- Where all empty lines come after what a span takes, it touches what it takes. -/
theorem Kern.Takes.lineOf_eq_ok (h : Takes score span first last)
    (hempty : ∀ empty, (lines score).findIdx? List.isEmpty = some empty → last < empty) :
    (LineMap.ofScore score).lineOf span.start = .ok first ∧
      (LineMap.ofScore score).lineOf (span.stop - trailingBytes) = .ok last := by
  have hle := h.le
  rw [h.lineOf_start, h.lineOf_stop]
  split
  · next empty hfirst =>
    have hlt := hempty empty hfirst
    exact ⟨if_neg (by omega), if_neg (by omega)⟩
  · exact ⟨rfl, rfl⟩

/-- The last line of what takes lines is not empty. -/
theorem Kern.Takes.getElem?_last_ne (h : Takes score span first last) :
    (lines score)[last]? ≠ some [] := by
  intro hlast
  obtain ⟨hlt, hempty⟩ := List.getElem?_eq_some_iff.mp hlast
  have hsucc := Kern.lineStart_succ hlt
  have hge := h.stop_ge
  rw [h.stop_eq, hsucc, hempty, Text.byteLength_nil, trailingBytes] at hge
  omega

end Takes

variable (htakes : ∀ span ∈ spans, ∃ first last, Takes score span first last)
include htakes

/-- The lines of spans are marked where all empty lines come after them. -/
theorem markSpans_eq_ok (hempty : ∀ span ∈ spans, ∀ line, (lineSpan score line).Overlaps span →
      ∀ empty, (lines score).findIdx? List.isEmpty = some empty → line < empty) :
    markSpans score spans marker = .ok (exactlyMarked score spans marker) := by
  have hfound : ∀ span ∈ spans, ∃ first last, Takes score span first last ∧
      (LineMap.ofScore score).lineOf span.start = .ok first ∧
        (LineMap.ofScore score).lineOf (span.stop - trailingBytes) = .ok last := by
    intro span hspan
    obtain ⟨first, last, hspanTakes⟩ := htakes span hspan
    have hoverlaps := hspanTakes.overlaps_iff.mpr ⟨hspanTakes.le, Nat.le_refl last⟩
    exact ⟨first, last, hspanTakes, hspanTakes.lineOf_eq_ok (hempty span hspan last hoverlaps)⟩
  have htouches : ∀ span ∈ spans, ∀ line,
      span.Touches score line ↔ (lineSpan score line).Overlaps span := by
    intro span hspan line
    obtain ⟨first, last, hspanTakes, hfirst, hlast⟩ := hfound span hspan
    rw [Span.touches_iff hspanTakes.not_isShort hfirst hlast, hspanTakes.overlaps_iff]
  have hmark : exactlyMarked score spans marker = .ofTouched score marker
      ((List.range (lines score).length).filter (Kern.hasBytesOf score spans)) := by
    rw [exactlyMarked, MarkedScore.ofTouched, MarkedScore.mk.injEq]
    refine ⟨List.ext_getElem (by simp) fun line hline _ => ?_, rfl, rfl⟩
    rw [List.length_mapIdx] at hline
    rw [List.getElem_mapIdx, List.getElem_mapIdx]
    by_cases hbytes : Kern.hasBytesOf score spans line <;>
      by_cases hdot : (lines score)[line].head? = some '.' <;>
      simp [hline, hbytes, hdot, markLine]
  rw [hmark]
  refine markSpans_eq_ofTouched (fun offset hoffset => ?_)
    (List.pairwise_lt_range.filter _) fun line => ?_
  · obtain ⟨span, hspan, -, rfl | rfl⟩ := mem_lookups.mp hoffset
    · obtain ⟨first, last, -, hfirst, -⟩ := hfound span hspan
      exact ⟨first, hfirst⟩
    · obtain ⟨first, last, -, -, hlast⟩ := hfound span hspan
      exact ⟨last, hlast⟩
  · rw [List.mem_filter, List.mem_range, Kern.hasBytesOf, List.any_eq_true]
    constructor
    · rintro ⟨-, span, hspan, hoverlaps⟩
      exact ⟨span, hspan, (htouches span hspan line).mpr (of_decide_eq_true hoverlaps)⟩
    · rintro ⟨span, hspan, hline⟩
      exact ⟨hline.lt_length, span, hspan, decide_eq_true ((htouches span hspan line).mp hline)⟩

/-- Marking fails where an empty line comes before a span, and the first empty line is named. -/
theorem markSpans_eq_error {empty line : Nat} {span : Span} (hspan : span ∈ spans)
    (hline : (lineSpan score line).Overlaps span)
    (hempty : (lines score).findIdx? List.isEmpty = some empty) (hle : empty ≤ line) :
    markSpans score spans marker = .error (.emptyLine empty) := by
  cases hmarked : markSpans score spans marker with
  | ok marked =>
    -- The last line of the span is not found.
    obtain ⟨first, last, hspanTakes⟩ := htakes span hspan
    have hlast := (hspanTakes.overlaps_iff.mp hline).2
    have hfound := exists_markSpans_eq_ok_iff.mp ⟨marked, hmarked⟩
    obtain ⟨found, hok⟩ := hfound _ (mem_lookups.mpr
      ⟨span, hspan, hspanTakes.not_isShort, Or.inr rfl⟩)
    obtain ⟨-, -, hbefore⟩ := LineMap.lineOf_eq_ok_iff.mp hok
    rw [hspanTakes.lineOf_stop, hempty] at hok
    dsimp only at hok
    rw [if_pos (Nat.le_trans hle hlast)] at hok
    cases hok
  | error e =>
    obtain ⟨before, offset, after, hoffsets, -, hfailed⟩ := markSpans_eq_error_iff.mp hmarked
    obtain ⟨other, hother, -, heq⟩ := mem_lookups.mp
      (hoffsets ▸ List.mem_append_right before List.mem_cons_self)
    obtain ⟨first, last, hotherTakes⟩ := htakes other hother
    have hcause : ∀ {line : Nat}, (if empty ≤ line then (.error (.emptyLine empty) :
        Except LineError Nat) else .ok line) = .error e → e = .emptyLine empty := by
      intro line hfailed
      split at hfailed
      · exact (Except.error.inj hfailed).symm
      · cases hfailed
    rcases heq with rfl | rfl
    · rw [hotherTakes.lineOf_start, hempty] at hfailed
      rw [hcause hfailed]
    · rw [hotherTakes.lineOf_stop, hempty] at hfailed
      rw [hcause hfailed]

/-- Marking succeeds where all empty lines come after the spans, and only there. -/
theorem markSpans_eq_ok_iff {marked : MarkedScore} :
    markSpans score spans marker = .ok marked ↔
      (∀ span ∈ spans, ∀ line, (lineSpan score line).Overlaps span →
        ∀ empty, (lines score).findIdx? List.isEmpty = some empty → line < empty) ∧
      marked = exactlyMarked score spans marker := by
  constructor
  · intro h
    have hempty : ∀ span ∈ spans, ∀ line, (lineSpan score line).Overlaps span →
        ∀ empty, (lines score).findIdx? List.isEmpty = some empty → line < empty := by
      intro span hspan line hline empty hempty
      refine Nat.lt_of_not_le fun hle => ?_
      rw [markSpans_eq_error htakes hspan hline hempty hle] at h
      cases h
    rw [markSpans_eq_ok htakes hempty] at h
    exact ⟨hempty, (Except.ok.inj h).symm⟩
  · rintro ⟨hempty, rfl⟩
    exact markSpans_eq_ok htakes hempty

/-- The last span goes on at least as far as all others, and it does not end with an empty line. -/
theorem emptyLineBefore_of_le (hordered : spans.Pairwise fun first second =>
      first.stop ≤ second.start) {span : Span} (hspan : span ∈ spans) {empty line : Nat}
    (hline : (lineSpan score line).Overlaps span) (hempty : (lines score)[empty]? = some [])
    (hle : empty ≤ line) : EmptyLineBefore score spans := by
  obtain ⟨others, final, rfl⟩ : ∃ others final, spans = others ++ [final] :=
    ⟨_, _, (List.dropLast_concat_getLast (List.ne_nil_of_mem hspan)).symm⟩
  obtain ⟨first, last, hfinal⟩ := htakes final (by simp)
  have hlast : line ≤ last := by
    rcases List.mem_append.mp hspan with hmem | hmem
    · obtain ⟨_, _, hspanTakes⟩ := htakes span hspan
      have hstop := (List.pairwise_append.mp hordered).2.2 span hmem final (by simp)
      have hbefore := hspanTakes.last_lt_first hfinal hstop
      have hwithin := (hspanTakes.overlaps_iff.mp hline).2
      have hfirst := hfinal.le
      omega
    · obtain rfl := List.mem_singleton.mp hmem
      exact (hfinal.overlaps_iff.mp hline).2
  have hne : empty ≠ last := by
    rintro rfl
    exact hfinal.getElem?_last_ne hempty
  exact ⟨final, empty, last, by simp, hfinal.overlaps_iff.mpr ⟨hfinal.le, Nat.le_refl _⟩,
    by omega, hempty⟩

omit htakes

/-- A search for a pattern marks the lines that have bytes of some match, and no others. It fails
only where an empty line comes before the last line of the last match, and names the first empty
line then. -/
theorem markScore_compile (pattern : Pattern) (score : List Char) (marker : Char)
    {spans : List Span} (h : locate score pattern.compile.expression = .ok spans) :
    (EmptyLineBefore score spans → ∃ empty, (lines score).findIdx? List.isEmpty = some empty ∧
        markScore score pattern.compile.expression marker = .error (.line (.emptyLine empty))) ∧
      (¬ EmptyLineBefore score spans →
        markScore score pattern.compile.expression marker =
          .ok (exactlyMarked score spans marker)) ∧
      ∀ offset length, markScore score pattern.compile.expression marker ≠
        .error (.line (.offsetOutOfRange offset length)) := by
  have htakes : ∀ span ∈ spans, ∃ first last, Takes score span first last := by
    intro span hspan
    obtain ⟨_, _, _, honLines⟩ := onLines_of_mem_locate h hspan
    exact honLines.exists_takes
  have hmark : markScore score pattern.compile.expression marker =
      (markSpans score spans marker).mapError SearchError.line := by
    rw [markScore, h]
    rfl
  have hfails : EmptyLineBefore score spans → ∃ empty,
      (lines score).findIdx? List.isEmpty = some empty ∧
        markScore score pattern.compile.expression marker = .error (.line (.emptyLine empty)) := by
    rintro ⟨span, empty, line, hlast, hline, hlt, hempty⟩
    obtain ⟨first, hfirst, hle⟩ := findIdx?_isEmpty_of_getElem? hempty
    refine ⟨first, hfirst, ?_⟩
    rw [hmark, markSpans_eq_error htakes (List.mem_of_getLast? hlast) hline hfirst (by omega)]
    rfl
  have hmarks : ¬ EmptyLineBefore score spans →
      markScore score pattern.compile.expression marker =
        .ok (exactlyMarked score spans marker) := by
    intro hnone
    rw [hmark, markSpans_eq_ok htakes, mapError_ok]
    intro span hspan line hline empty hfirst
    refine Nat.lt_of_not_le fun hle => hnone ?_
    obtain ⟨hlt, hempty, -⟩ := List.findIdx?_eq_some_iff_getElem.mp hfirst
    refine emptyLineBefore_of_le htakes (pairwise_of_locate h) hspan hline ?_ hle
    rw [List.getElem?_eq_getElem hlt, List.isEmpty_iff.mp hempty]
  refine ⟨hfails, hmarks, fun offset length heq => ?_⟩
  by_cases hempty : EmptyLineBefore score spans
  · obtain ⟨_, -, hfailed⟩ := hfails hempty
    rw [hfailed] at heq
    cases heq
  · rw [hmarks hempty] at heq
    cases heq

/-- Two notes with a null record between them: all three records are touched, and the notes carry
the marker. The empty line at the end comes after the match. -/
theorem markScore_compile_null_record :
    locate "4c\n.\n4d\n".toList
          (Pattern.sequence [.quarterNote .c, .quarterNote .d]).compile.expression =
        .ok [⟨0, 8⟩] ∧
      ¬ EmptyLineBefore "4c\n.\n4d\n".toList [⟨0, 8⟩] ∧
      markScore "4c\n.\n4d\n".toList
          (Pattern.sequence [.quarterNote .c, .quarterNote .d]).compile.expression 'N' =
        .ok ⟨["4cN".toList, ['.'], "4dN".toList, []], [0, 1, 2], 'N'⟩ := by
  have hlocate : locate "4c\n.\n4d\n".toList
      (Pattern.sequence [.quarterNote .c, .quarterNote .d]).compile.expression = .ok [⟨0, 8⟩] := rfl
  have hlines : lines "4c\n.\n4d\n".toList = ["4c".toList, ['.'], "4d".toList, []] := by decide
  have hnone : ¬ EmptyLineBefore "4c\n.\n4d\n".toList [⟨0, 8⟩] := by
    rintro ⟨span, empty, line, hspan, hline, hlt, hempty⟩
    rw [hlines] at hempty
    obtain rfl : ⟨0, 8⟩ = span := Option.some.inj hspan
    -- The lines of the match come before the empty one, which is the last one.
    have hline : line < 3 := by
      refine Nat.lt_of_not_le fun hle => ?_
      have hstart := @Kern.lineStart_mono "4c\n.\n4d\n".toList _ _ hle
      have height : Kern.lineStart "4c\n.\n4d\n".toList 3 = 8 := by
        rw [Kern.lineStart, hlines]
        rfl
      rw [Span.Overlaps, lineSpan] at hline
      dsimp only at hline
      omega
    obtain rfl | rfl : empty = 0 ∨ empty = 1 := by omega
    · cases hempty
    · cases hempty
  have hmarked : exactlyMarked "4c\n.\n4d\n".toList [⟨0, 8⟩] 'N' =
      ⟨["4cN".toList, ['.'], "4dN".toList, []], [0, 1, 2], 'N'⟩ := by decide +kernel
  obtain ⟨-, hmarks, -⟩ := markScore_compile (.sequence [.quarterNote .c, .quarterNote .d]) _ 'N'
    hlocate
  exact ⟨hlocate, hnone, hmarked ▸ hmarks hnone⟩

end MotifSearch
