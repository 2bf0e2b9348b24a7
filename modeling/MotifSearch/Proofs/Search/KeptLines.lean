import MotifSearch.Proofs.Kern.LineSpans
import MotifSearch.Proofs.Record.Marker
import MotifSearch.Proofs.Search.ControlRecords

/-!
# Changes of a score that keep the lines of its matches

A score can be changed without disturbing a search: what is found in it has moved, but it takes the
same lines as before. So it is with a marker at the end of a line that is not empty, if the marker
does not go on with a pitch, and with a record without notes at the end of the score.

## Main definitions

* `Regex.KeepsLines` — what is found in another score takes the same lines

## Main results

* `spansFrom_marker` — what is found after a marker is inserted at the end of a line
* `keepsLines_marker`, `keepsLines_append_control` — changes that keep the lines of matches
-/

namespace MotifSearch

open Text (byteLength)
open Record (terminatedText terminatedText_append terminatedText_cons)

namespace Kern

variable {marker : Char} {first : List (List Char)} {line : List Char}
variable (hfirst : ∀ line ∈ first, '\n' ∉ line) (hline : '\n' ∉ line)
include hfirst hline

/-- The lines of a text, one of which stands out. -/
theorem lines_eq_append_cons (rest : List Char) :
    lines (terminatedText first ++ (line ++ '\n' :: rest)) = first ++ line :: lines rest := by
  rw [lines_terminatedText hfirst, lines_append_newline hline]

/-- Where a line begins after a marker is inserted at the end of a line. -/
theorem lineStart_marker (hmarker : marker ≠ '\n') (rest : List Char) (next : Nat) :
    lineStart (terminatedText first ++ (line ++ marker :: '\n' :: rest)) next =
      lineStart (terminatedText first ++ (line ++ '\n' :: rest)) next +
        if first.length < next then marker.utf8Size else 0 := by
  have hmarked : '\n' ∉ line ++ [marker] := by simp [hline, Ne.symm hmarker]
  have hlines := lines_eq_append_cons hfirst hmarked rest
  rw [List.append_assoc, List.singleton_append] at hlines
  rw [lineStart, lineStart, hlines, lines_eq_append_cons hfirst hline, List.take_append,
    List.take_append]
  split
  · next hlt =>
    obtain ⟨more, rfl⟩ := Nat.exists_eq_add_of_lt hlt
    have hmore : first.length + more + 1 - first.length = more + 1 := by omega
    rw [hmore, List.take_succ_cons, List.take_succ_cons]
    simp only [terminatedText_append, terminatedText_cons, Text.byteLength_append,
      Text.byteLength_cons, Text.byteLength_nil]
    omega
  · next hle =>
    rw [Nat.sub_eq_zero_of_le (Nat.not_lt.mp hle)]
    rfl

/-- A range takes the same lines after a marker is inserted at the end of one. -/
theorem Takes.pushed (hmarker : marker ≠ '\n') {rest : List Char} {span : Span} {start last : Nat}
    (h : Takes (terminatedText first ++ (line ++ '\n' :: rest)) span start last) :
    Takes (terminatedText first ++ (line ++ marker :: '\n' :: rest))
      (span.pushed (byteLength (terminatedText first ++ line)) marker.utf8Size) start last := by
  have hstarts := lineStart_marker hfirst hline hmarker rest
  have hmarked : '\n' ∉ line ++ [marker] := by simp [hline, Ne.symm hmarker]
  have hnew := lines_eq_append_cons hfirst hmarked rest
  have hold := lines_eq_append_cons hfirst hline rest
  rw [List.append_assoc, List.singleton_append] at hnew
  generalize hscore : terminatedText first ++ (line ++ '\n' :: rest) = score at *
  -- The marker stands right before the newline of its line.
  have hlength : first.length < (lines score).length := by simp [hold]
  have hnewline : lineStart score (first.length + 1) =
      byteLength (terminatedText first ++ line) + 1 := by
    have hget : (lines score)[first.length] = line := by simp [hold]
    rw [lineStart_succ hlength, lineStart_of_eq_append hold, hget, Text.byteLength_append]
  have hbefore : lineStart score first.length ≤ byteLength (terminatedText first ++ line) := by
    rw [lineStart_of_eq_append hold, Text.byteLength_append]
    exact Nat.le_add_right _ _
  generalize byteLength (terminatedText first ++ line) = place at *
  obtain ⟨hle, hlast, hge, hlt, hstop, hstopGe, htwo⟩ := h
  have hstartBefore : start < first.length →
      lineStart score (start + 1) ≤ lineStart score first.length := lineStart_mono
  have hstartAfter : first.length < start →
      lineStart score (first.length + 1) ≤ lineStart score start := lineStart_mono
  have hlastBefore : last < first.length →
      lineStart score (last + 1) ≤ lineStart score first.length := lineStart_mono
  have hlastAfter : first.length < last →
      lineStart score (first.length + 1) ≤ lineStart score last := lineStart_mono
  have hlastStop : first.length ≤ last →
      lineStart score (first.length + 1) ≤ lineStart score (last + 1) :=
    fun hle => lineStart_mono (Nat.add_le_add_right hle 1)
  have hcount : (lines (terminatedText first ++ (line ++ marker :: '\n' :: rest))).length =
      (lines score).length := by rw [hnew, hold, List.length_append, List.length_append]; rfl
  have htrailing : trailingBytes = 2 := rfl
  rw [htrailing] at hstopGe htwo
  refine ⟨hle, hcount ▸ hlast, ?_, ?_, ?_, ?_, ?_⟩
  · rw [hstarts, Span.pushed]
    dsimp only
    split <;> split <;> omega
  · rw [hstarts, Span.pushed]
    dsimp only
    split <;> split <;> omega
  · rw [hstarts, Span.pushed]
    dsimp only
    split <;> split <;> omega
  · rw [hstarts, Span.pushed]
    dsimp only
    split <;> split <;> omega
  · rw [Span.pushed]
    dsimp only
    split <;> split <;> omega

omit hline in
/-- A range takes the same lines after something is added at the end of whole lines. -/
theorem Takes.append {span : Span} {start last : Nat}
    (h : Takes (terminatedText first) span start last) (rest : List Char) :
    Takes (terminatedText first ++ rest) span start last := by
  have hold : lines (terminatedText first) = first ++ [[]] := by
    rw [← List.append_nil (terminatedText first), lines_terminatedText hfirst]
    rfl
  have hnew := lines_terminatedText hfirst rest
  have hrest : 0 < (lines rest).length := List.length_pos_iff.mpr (List.splitOn_ne_nil '\n' rest)
  have hstarts : ∀ next ≤ first.length, lineStart (terminatedText first ++ rest) next =
      lineStart (terminatedText first) next := by
    intro next hle
    rw [lineStart, lineStart, hold, hnew, List.take_append_of_le_length hle,
      List.take_append_of_le_length hle]
  obtain ⟨hle, hlast, hge, hlt, hstop, hstopGe, htwo⟩ := h
  rw [hold, List.length_append, List.length_singleton] at hlast
  refine ⟨hle, ?_, ?_, ?_, ?_, ?_, htwo⟩
  · rw [hnew, List.length_append]
    omega
  · rwa [hstarts start (by omega)]
  · rwa [hstarts (start + 1) (by omega)]
  · rwa [hstarts (last + 1) (by omega)]
  · rwa [hstarts last (by omega)]

end Kern

namespace Regex

variable {regex : Regex} {marker : Char} {before text : List Char} {atLineStart : Bool}
variable {skip offset : Nat}

section Spans

variable (h : Leads Record.matchedControl regex .between .between)
variable (hmarker : Record.pitchEnds.contains marker = true)
include h hmarker

/-- At the end of a line, no match begins with a marker or with the newline after it. -/
private theorem spansFrom_marker_nil (skip offset : Nat) (text : List Char) :
    regex.spansFrom (lengthWithMarker 0 skip) false offset (marker :: '\n' :: text) =
      (regex.spansFrom skip false offset ('\n' :: text)).map
        (Span.pushed offset marker.utf8Size) := by
  have hsize : offset + marker.utf8Size + '\n'.utf8Size =
      offset + '\n'.utf8Size + marker.utf8Size := Nat.add_right_comm ..
  have hmap : ∀ skip, (regex.spansFrom skip true (offset + '\n'.utf8Size) text).map
      (Span.pushed offset marker.utf8Size) =
        regex.spansFrom skip true (offset + marker.utf8Size + '\n'.utf8Size) text := by
    intro skip
    rw [map_pushed_spansFrom regex skip true (Nat.le_add_right _ _), hsize]
  have hne : (marker == '\n') = false :=
    beq_eq_false_iff_ne.mpr (Record.ne_newline_of_pitchEnds hmarker)
  have hnewline : (regex.preferredLength false ('\n' :: text)).getD 0 = 0 :=
    getD_preferredLength h rfl text
  cases skip with
  | succ skip => exact (hmap skip).symm
  | zero =>
    have hfirst : (regex.preferredLength false (marker :: '\n' :: text)).getD 0 = 0 := by
      have hlength : regex.preferredLength false ([] ++ marker :: '\n' :: text) = _ :=
        preferredLength_marker h rfl hmarker text
      rw [List.nil_append, List.nil_append] at hlength
      rw [hlength]
      cases hsome : regex.preferredLength false ('\n' :: text) with
      | none => rfl
      | some length =>
        obtain rfl : length = 0 := by simpa [hsome] using hnewline
        rfl
    rw [spansFrom_of_no_match hnewline rfl]
    exact (spansFrom_of_no_match hfirst rfl).trans
      (hne ▸ (spansFrom_of_no_match hnewline rfl).trans (hmap 0).symm)

omit h hmarker in
/-- What a match covers that begins before the marker. -/
private theorem pushed_take (marker : Char) (text : List Char) (offset : Nat) (hne : before ≠ [])
    (length : Nat) :
    Span.pushed (offset + byteLength before) marker.utf8Size
        ⟨offset, offset + byteLength ((before ++ '\n' :: text).take length)⟩ =
      ⟨offset, offset + byteLength ((before ++ marker :: '\n' :: text).take
        (lengthWithMarker before.length length))⟩ := by
  have hplace : offset < offset + byteLength before :=
    Nat.lt_add_of_pos_right (Text.byteLength_pos hne)
  unfold lengthWithMarker
  split
  · next hlt =>
    obtain ⟨more, rfl⟩ := Nat.exists_eq_add_of_lt hlt
    have hold : (before ++ '\n' :: text).take (before.length + more + 1) =
        before ++ '\n' :: text.take more := by
      rw [Nat.add_assoc, List.take_length_add_append, List.take_succ_cons]
    have hnew : (before ++ marker :: '\n' :: text).take (before.length + more + 1 + 1) =
        before ++ marker :: '\n' :: text.take more := by
      rw [Nat.add_assoc, Nat.add_assoc, List.take_length_add_append, List.take_succ_cons,
        List.take_succ_cons]
    have hpos := '\n'.utf8Size_pos
    rw [hold, hnew, Span.pushed_of_lt hplace]
    · simp only [Text.byteLength_append, Text.byteLength_cons, Span.mk.injEq, true_and]
      omega
    · simp only [Text.byteLength_append, Text.byteLength_cons]
      omega
  · next hle =>
    rw [Nat.not_lt] at hle
    have hstop : byteLength (before.take length) ≤ byteLength before := by
      conv => rhs; rw [← List.take_append_drop length before]
      rw [Text.byteLength_append]
      exact Nat.le_add_right ..
    rw [List.take_append_of_le_length hle, List.take_append_of_le_length hle,
      Span.pushed_of_stop_le hplace (Nat.add_le_add_left hstop offset)]

/-- What is found after a marker is inserted at the end of a line that is not empty. -/
theorem spansFrom_marker (hbefore : lineStartAfter atLineStart before = false) :
    regex.spansFrom (lengthWithMarker before.length skip) atLineStart offset
        (before ++ marker :: '\n' :: text) =
      (regex.spansFrom skip atLineStart offset (before ++ '\n' :: text)).map
        (Span.pushed (offset + byteLength before) marker.utf8Size) := by
  induction before generalizing skip atLineStart offset with
  | nil =>
    obtain rfl : atLineStart = false := hbefore
    exact spansFrom_marker_nil h hmarker skip offset text
  | cons c before ih =>
    have hplace : offset + byteLength (c :: before) = offset + c.utf8Size + byteLength before := by
      rw [Text.byteLength_cons, Nat.add_assoc]
    have hrest : ∀ skip, regex.spansFrom (lengthWithMarker before.length skip) (c == '\n')
        (offset + c.utf8Size) (before ++ marker :: '\n' :: text) =
          (regex.spansFrom skip (c == '\n') (offset + c.utf8Size) (before ++ '\n' :: text)).map
            (Span.pushed (offset + byteLength (c :: before)) marker.utf8Size) := by
      intro skip
      rw [hplace]
      exact ih hbefore
    cases skip with
    | succ skip =>
      rw [List.length_cons, lengthWithMarker_succ]
      exact hrest skip
    | zero =>
      have hmarked := preferredLength_marker h hbefore hmarker text
      have hnone : (regex.preferredLength atLineStart (c :: before ++ '\n' :: text)).getD 0 = 0 →
          (regex.preferredLength atLineStart
            (c :: before ++ marker :: '\n' :: text)).getD 0 = 0 := by
        rw [hmarked]
        cases regex.preferredLength atLineStart (c :: before ++ '\n' :: text) with
        | none => exact id
        | some length =>
          rintro rfl
          rfl
      have hskip : (regex.preferredLength atLineStart (c :: before ++ '\n' :: text)).getD 0 = 0 →
          regex.spansFrom 0 atLineStart offset (c :: before ++ marker :: '\n' :: text) =
            (regex.spansFrom 0 atLineStart offset (c :: before ++ '\n' :: text)).map
              (Span.pushed (offset + byteLength (c :: before)) marker.utf8Size) := by
        intro hzero
        have hold : regex.spansFrom 0 atLineStart offset (c :: before ++ '\n' :: text) = _ :=
          spansFrom_of_no_match hzero rfl
        exact (spansFrom_of_no_match (hnone hzero) rfl).trans
          ((hrest 0).trans (congrArg _ hold.symm))
      rcases hlength : regex.preferredLength atLineStart (c :: before ++ '\n' :: text) with
        _ | _ | more
      · exact hskip (by rw [hlength]; rfl)
      · exact hskip (by rw [hlength]; rfl)
      · have hpushed := pushed_take marker text offset (List.cons_ne_nil c before) (more + 1)
        rw [hlength, Option.map_some, List.length_cons, lengthWithMarker_succ] at hmarked
        rw [List.length_cons, lengthWithMarker_succ] at hpushed
        rw [spansFrom_of_some hlength rfl, List.map_cons, hpushed]
        exact (spansFrom_of_some hmarked rfl).trans (congrArg _ (hrest more))

end Spans

/-- What is found in another score takes the same lines as what is found in a score, and no empty
line comes earlier in the other score. -/
structure KeepsLines (regex : Regex) (score other : List Char) : Prop where
  found : ∃ move : Span → Span,
    regex.spansFrom 0 true 0 other = (regex.spansFrom 0 true 0 score).map move ∧
      ∀ span first last, Kern.Takes score span first last → Kern.Takes other (move span) first last
  empty : ∀ last : Nat, (Kern.lines other)[last]? = some [] →
    ∃ first ≤ last, (Kern.lines score)[first]? = some []
  length_le : (Kern.lines score).length ≤ (Kern.lines other).length

namespace KeepsLines

variable {score other third : List Char}

theorem refl (regex : Regex) (score : List Char) : KeepsLines regex score score :=
  ⟨⟨id, (List.map_id _).symm, fun _ _ _ => id⟩, fun empty h => ⟨empty, Nat.le_refl _, h⟩,
    Nat.le_refl _⟩

theorem trans (h : KeepsLines regex score other) (hother : KeepsLines regex other third) :
    KeepsLines regex score third := by
  obtain ⟨move, hmove, htakes⟩ := h.found
  obtain ⟨again, hagain, htakesAgain⟩ := hother.found
  refine ⟨⟨again ∘ move, by rw [hagain, hmove, List.map_map], ?_⟩, ?_,
    Nat.le_trans h.length_le hother.length_le⟩
  · intro span first last hspan
    exact htakesAgain _ _ _ (htakes _ _ _ hspan)
  · intro empty hempty
    obtain ⟨middle, hmiddle, hempty⟩ := hother.empty empty hempty
    obtain ⟨first, hfirst, hempty⟩ := h.empty middle hempty
    exact ⟨first, Nat.le_trans hfirst hmiddle, hempty⟩

end KeepsLines

variable {first : List (List Char)} {line : List Char}
variable (h : Leads Record.matchedControl regex .between .between)
variable (hfirst : ∀ line ∈ first, '\n' ∉ line)
include h hfirst

/-- A marker at the end of a line that is not empty keeps the lines of all matches. -/
theorem keepsLines_marker (rest : List Char) (hline : '\n' ∉ line) (hne : line ≠ [])
    (hmarker : Record.pitchEnds.contains marker = true) :
    KeepsLines regex (terminatedText first ++ (line ++ '\n' :: rest))
      (terminatedText first ++ (line ++ marker :: '\n' :: rest)) := by
  have hnewline := Record.ne_newline_of_pitchEnds hmarker
  have hmarked : '\n' ∉ line ++ [marker] := by simp [hline, Ne.symm hnewline]
  have hnew := Kern.lines_eq_append_cons hfirst hmarked rest
  rw [List.append_assoc, List.singleton_append] at hnew
  have hold := Kern.lines_eq_append_cons hfirst hline rest
  have hbefore : lineStartAfter true (terminatedText first ++ line) = false := by
    rw [lineStartAfter_append, Record.lineStartAfter_terminatedText, ← Bool.not_eq_true]
    intro hstart
    exact hne (eq_nil_of_lineStartAfter hstart hline).2
  refine ⟨⟨_, ?_, fun span start last htakes => htakes.pushed hfirst hline hnewline⟩, ?_, ?_⟩
  · have hspans : regex.spansFrom (lengthWithMarker _ 0) true 0
        (terminatedText first ++ line ++ marker :: '\n' :: rest) = _ :=
      spansFrom_marker h hmarker hbefore
    rw [Nat.zero_add, List.append_assoc, List.append_assoc] at hspans
    exact hspans
  · intro last hempty
    refine ⟨last, Nat.le_refl _, ?_⟩
    rw [hnew] at hempty
    rw [hold]
    rcases Nat.lt_trichotomy last first.length with hlt | rfl | hgt
    · rwa [List.getElem?_append_left hlt] at hempty ⊢
    · simp at hempty
    · obtain ⟨more, rfl⟩ := Nat.exists_eq_add_of_lt hgt
      have hsub : first.length + more + 1 - first.length = more + 1 := by omega
      rwa [List.getElem?_append_right (by omega), hsub, List.getElem?_cons_succ] at hempty ⊢
  · rw [hnew, hold, List.length_append, List.length_append]
    exact Nat.le_refl _

/-- A record without notes at the end keeps the lines of all matches. -/
theorem keepsLines_append_control (hline : '\n' ∉ line)
    (hcontrol : Record.IsControl (line ++ ['\n'])) (hpassed : regex.PassesOver (line ++ ['\n'])) :
    KeepsLines regex (terminatedText first) (terminatedText first ++ (line ++ ['\n'])) := by
  have hnew : Kern.lines (terminatedText first ++ (line ++ ['\n'])) = first ++ [line, []] :=
    Kern.lines_eq_append_cons hfirst hline []
  have hold : Kern.lines (terminatedText first) = first ++ [[]] := by
    rw [← List.append_nil (terminatedText first), Kern.lines_terminatedText hfirst]
    rfl
  refine ⟨⟨id, ?_, fun span start last htakes => htakes.append hfirst _⟩, ?_, ?_⟩
  · rw [List.map_id]
    exact spansFrom_append_control h hcontrol hpassed (Record.lineStartAfter_terminatedText first)
  · intro last hempty
    rw [hnew] at hempty
    rw [hold]
    rcases Nat.lt_trichotomy last first.length with hlt | rfl | hgt
    · refine ⟨last, Nat.le_refl _, ?_⟩
      rwa [List.getElem?_append_left hlt] at hempty ⊢
    · obtain ⟨c, text, heq, -⟩ := hcontrol
      have hnil : line = [] := by simpa using hempty
      simp [hnil] at heq
    · exact ⟨first.length, Nat.le_of_lt hgt, by simp⟩
  · rw [hnew, hold, List.length_append, List.length_append]
    exact Nat.add_le_add_left (Nat.le_succ 1) _

end Regex

end MotifSearch
