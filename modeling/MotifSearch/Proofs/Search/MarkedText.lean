import Mathlib.Data.List.Forall2
import MotifSearch.Proofs.Except
import MotifSearch.Proofs.Search.KeptLines
import MotifSearch.Proofs.Search.Marking

/-!
# Searching a marked score

Marking does not disturb a search. A marker that does not go on with a pitch stands at the end of
lines that are not empty, so what is found in a marked score takes the same lines as before, and
marking it once more touches the same lines. The legend is a record without notes, in which nothing
is found either.

## Main definitions

* `MarkedLine` — a line, marked or not
* `MarkedScore.FoundAgain` — a search of another score touches the lines of a marked one

## Main results

* `Regex.keepsLines_of_markedLines` — marked lines keep the lines of all matches
* `Regex.passesOver_legend` — nothing is found in the legend
* `exists_markedLines` — the lines of a marked score are those of the score, marked or not
* `foundAgain_of_keepsLines` — marking touches the same lines where the lines of matches are kept
* `foundAgain_markScore` — what is found in a marked score is what has been marked
-/

namespace MotifSearch

open Text (byteLength)
open Record (terminatedText terminatedText_append terminatedText_cons)
open Kern (Takes lines lineSpan)

/-- A line, with a marker at its end or not. No empty line is marked. -/
def MarkedLine (marker : Char) (line other : List Char) : Prop :=
  other = line ∨ line ≠ [] ∧ other = line ++ [marker]

theorem MarkedLine.newline_notMem {marker : Char} {line other : List Char}
    (h : MarkedLine marker line other) (hmarker : marker ≠ '\n') (hline : '\n' ∉ line) :
    '\n' ∉ other := by
  rcases h with rfl | ⟨-, rfl⟩
  · exact hline
  · simp [hline, Ne.symm hmarker]

theorem newline_notMem_of_markedLines {marker : Char} {whole others : List (List Char)}
    (h : List.Forall₂ (MarkedLine marker) whole others) (hmarker : marker ≠ '\n')
    (hwhole : ∀ line ∈ whole, '\n' ∉ line) : ∀ line ∈ others, '\n' ∉ line := by
  induction h with
  | nil => exact hwhole
  | cons hother _ ih =>
    obtain ⟨hline, hwhole⟩ := List.forall_mem_cons.mp hwhole
    exact List.forall_mem_cons.mpr ⟨hother.newline_notMem hmarker hline, ih hwhole⟩

/-- A search of another score finds as many matches as one of the score that has been marked, and
marking them touches the same lines. -/
def MarkedScore.FoundAgain (marked : MarkedScore) (expression score other : List Char) : Prop :=
  ∃ spans found, locate score expression = .ok spans ∧ locate other expression = .ok found ∧
    found.length = spans.length ∧
    ∀ again, ∃ twice, markScore other expression again = .ok twice ∧ twice.touched = marked.touched

/-- The legend is a record without notes. -/
theorem MarkedScore.legend_eq (marked : MarkedScore) : marked.legend =
    '!' :: ("!!RDF**kern: ".toList ++ marked.marker :: " = marked note".toList) := rfl

theorem MarkedScore.newline_notMem_legend {marked : MarkedScore} (hmarker : marked.marker ≠ '\n') :
    '\n' ∉ marked.legend := by
  have hfirst : '\n' ∉ "!!!RDF**kern: ".toList := by decide
  have hrest : '\n' ∉ " = marked note".toList := by decide
  intro hmem
  rcases List.mem_append.mp hmem with hmem | hmem
  · exact hfirst hmem
  · rcases List.mem_cons.mp hmem with heq | hmem
    · exact hmarker heq.symm
    · exact hrest hmem

theorem MarkedScore.isControl_legend {marked : MarkedScore} (hmarker : marked.marker ≠ '\n') :
    Record.IsControl (marked.legend ++ ['\n']) := by
  rw [← Record.isControl_iff (newline_notMem_legend hmarker), legend_eq]
  rfl

namespace Regex

variable {regex : Regex} {marker : Char}
variable (h : Leads Record.matchedControl regex .between .between)
include h

/-- Marked lines keep the lines of all matches. -/
theorem keepsLines_of_markedLines (hmarker : Record.pitchEnds.contains marker = true)
    {whole others : List (List Char)} (hmarked : List.Forall₂ (MarkedLine marker) whole others)
    {first : List (List Char)} (hfirst : ∀ line ∈ first, '\n' ∉ line)
    (hwhole : ∀ line ∈ whole, '\n' ∉ line) (tail : List Char) :
    KeepsLines regex (terminatedText (first ++ whole) ++ tail)
      (terminatedText (first ++ others) ++ tail) := by
  induction hmarked generalizing first with
  | nil => exact .refl regex _
  | @cons line other whole others hother _ ih =>
    obtain ⟨hline, hwhole⟩ := List.forall_mem_cons.mp hwhole
    have hlast := hother.newline_notMem (Record.ne_newline_of_pitchEnds hmarker) hline
    have hbefore : ∀ line ∈ first ++ [other], '\n' ∉ line := by
      simpa [or_imp, forall_and, hlast] using hfirst
    have hrest := ih hbefore hwhole
    rw [List.append_assoc, List.append_assoc, List.singleton_append, List.singleton_append] at hrest
    rcases hother with rfl | ⟨hne, rfl⟩
    · exact hrest
    · have hmarked := keepsLines_marker h hfirst (terminatedText whole ++ tail) hline hne hmarker
      refine .trans ?_ hrest
      simpa [terminatedText_append] using hmarked

/-- Nothing is found in the legend. -/
theorem passesOver_legend {marked : MarkedScore} (hmarker : marked.marker ≠ '\n') :
    regex.PassesOver (marked.legend ++ ['\n']) := by
  rw [marked.legend_eq, List.cons_append]
  apply passesOver_of_forall h rfl
  intro offset text
  have hmarked : ∀ text,
      (regex.preferredLength false (marked.marker :: ' ' :: text)).getD 0 = 0 := by
    intro text
    by_cases htab : marked.marker = '\t'
    · rw [htab]
      exact getD_preferredLength_tab h rfl text
    · exact getD_preferredLength h (Mode.step_between_false htab) _
  have hfirst : (marked.marker == '\n') = false := beq_eq_false_iff_ne.mpr hmarker
  have hstep : ∀ offset text, regex.spansFrom 0 false offset (marked.marker :: ' ' :: text) =
      regex.spansFrom 0 false (offset + marked.marker.utf8Size) (' ' :: text) :=
    fun offset text => (spansFrom_of_no_match (hmarked text) rfl).trans (by rw [hfirst])
  have htoken : ∀ offset text,
      regex.spansFrom 0 false offset (" = marked note".toList ++ text) = _ :=
    fun offset text => spansFrom_token h (by decide) (by decide)
  calc
    regex.spansFrom 0 false offset
        ("!!RDF**kern: ".toList ++ marked.marker :: " = marked note".toList ++ '\n' :: text) =
      regex.spansFrom 0 false (offset + byteLength "!!RDF**kern: ".toList)
        (marked.marker :: (" = marked note".toList ++ '\n' :: text)) := by
      rw [List.append_assoc, spansFrom_token h (by decide) (by decide)]
      rfl
    _ = regex.spansFrom 0 false
        (offset + byteLength "!!RDF**kern: ".toList + marked.marker.utf8Size)
          (" = marked note".toList ++ '\n' :: text) := by
      exact hstep _ _
    _ = _ := by
      rw [htoken, Text.byteLength_append, Text.byteLength_cons, Nat.add_assoc, Nat.add_assoc]

end Regex

section Marked

variable {score : List Char} {spans : List Span} {marker : Char} {first : List (List Char)}
variable {tail : List Char}

/-- No line beyond the end of a score has bytes of what takes its lines. -/
private theorem hasBytesOf_of_le {line : Nat}
    (htakes : ∀ span ∈ spans, ∃ first last, Takes score span first last)
    (hle : (lines score).length ≤ line + 1) : Kern.hasBytesOf score spans line = false := by
  rw [Kern.hasBytesOf, List.any_eq_false]
  intro span hspan hline
  obtain ⟨first, last, hspanTakes⟩ := htakes span hspan
  have hlast := hspanTakes.last_lt
  have hwithin := (hspanTakes.overlaps_iff.mp (of_decide_eq_true hline)).2
  omega

/-- Where a score can be marked, it can be searched. -/
private theorem exists_of_markScore {expression : List Char} {marked : MarkedScore}
    (h : markScore score expression marker = .ok marked) :
    ∃ spans, locate score expression = .ok spans ∧ markSpans score spans marker = .ok marked := by
  obtain ⟨spans, hlocate, h⟩ := Except.exists_of_bind_eq_ok h
  refine ⟨spans, hlocate, ?_⟩
  cases hspans : markSpans score spans marker with
  | error cause => simp [hspans] at h
  | ok other => simpa [hspans] using h

section Empty

variable (hempty : ∀ span ∈ spans, ∀ line, (lineSpan score line).Overlaps span →
  ∀ empty, (lines score).findIdx? List.isEmpty = some empty → line < empty)
include hempty

/-- Where all empty lines come after the spans, no line with bytes of them is empty. -/
private theorem getElem?_ne_of_hasBytesOf {line : Nat}
    (hline : Kern.hasBytesOf score spans line = true) : (lines score)[line]? ≠ some [] := by
  intro hnil
  obtain ⟨span, hspan, hoverlaps⟩ := List.any_eq_true.mp hline
  obtain ⟨empty, hfound, hle⟩ := findIdx?_isEmpty_of_getElem? hnil
  exact absurd (hempty span hspan line (of_decide_eq_true hoverlaps) empty hfound)
    (Nat.not_lt.mpr hle)

/-- Where the lines of spans can be marked, they can be marked in a score that keeps them. -/
private theorem markSpans_of_keepsLines {regex : Regex} {other : List Char} {move : Span → Span}
    (htakes : ∀ span ∈ spans, ∃ first last, Takes score span first last)
    (hkeeps : regex.KeepsLines score other)
    (hmove : ∀ span first last, Takes score span first last → Takes other (move span) first last)
    (again : Char) : markSpans other (spans.map move) again =
      .ok (exactlyMarked other (spans.map move) again) := by
  refine markSpans_eq_ok (fun span hspan => ?_) fun span hspan line hline empty hfirst => ?_
  · obtain ⟨old, hold, rfl⟩ := List.mem_map.mp hspan
    obtain ⟨first, last, holdTakes⟩ := htakes old hold
    exact ⟨first, last, hmove old first last holdTakes⟩
  · obtain ⟨old, hold, rfl⟩ := List.mem_map.mp hspan
    obtain ⟨first, last, holdTakes⟩ := htakes old hold
    rw [(hmove old first last holdTakes).overlaps_iff, ← holdTakes.overlaps_iff] at hline
    obtain ⟨hlt, hnil, -⟩ := List.findIdx?_eq_some_iff_getElem.mp hfirst
    -- Some empty line of the score does not come later, and so it comes after the span, too.
    obtain ⟨earlier, hle, hearlier⟩ := hkeeps.empty empty
      (by rw [List.getElem?_eq_getElem hlt, List.isEmpty_iff.mp hnil])
    obtain ⟨found, hfound, hfoundLe⟩ := findIdx?_isEmpty_of_getElem? hearlier
    have hbefore := hempty old hold line hline found hfound
    omega

end Empty

/-- The lines of a marked score are those of the score, marked or not. The last one never is. -/
theorem exists_markedLines {pattern : Pattern} {marked : MarkedScore}
    (hlines : lines score = first ++ [tail])
    (h : markScore score pattern.compile.expression marker = .ok marked) :
    marked.marker = marker ∧ ∃ others, marked.lines = others ++ [tail] ∧
      List.Forall₂ (MarkedLine marker) first others := by
  obtain ⟨spans, hlocate, hspans⟩ := exists_of_markScore h
  have htakes := exists_takes_of_locate hlocate
  obtain ⟨hempty, rfl⟩ := (markSpans_eq_ok_iff htakes).mp hspans
  have htail : Kern.hasBytesOf score spans first.length = false :=
    hasBytesOf_of_le htakes (by simp [hlines])
  generalize hmark : (fun line text =>
    if Kern.hasBytesOf score spans line ∧ text.head? ≠ some '.' then text ++ [marker]
    else text) = mark
  have hwhole : (exactlyMarked score spans marker).lines = first.mapIdx mark ++ [tail] := by
    have hlast : mark first.length tail = tail := by
      subst hmark
      exact if_neg fun h => absurd h.1 (by simp [htail])
    rw [exactlyMarked, hmark, hlines, List.mapIdx_concat, hlast]
  have hmarked : ∀ line (hline : line < first.length),
      MarkedLine marker first[line] (mark line first[line]) := by
    intro line hline
    subst hmark
    dsimp only
    split
    · next hbytes =>
      -- Where an empty line comes before the end of a span, marking fails.
      refine Or.inr ⟨fun hnil => getElem?_ne_of_hasBytesOf hempty hbytes.1 ?_, rfl⟩
      rw [hlines, List.getElem?_append_left hline, List.getElem?_eq_getElem hline, hnil]
    · exact Or.inl rfl
  refine ⟨rfl, _, hwhole, List.forall₂_iff_get.mpr ⟨by simp, fun line hline _ => ?_⟩⟩
  rw [List.get_eq_getElem, List.get_eq_getElem, List.getElem_mapIdx]
  exact hmarked line hline

/-- Where the same lines are taken, the same lines have bytes of what is found. -/
private theorem hasBytesOf_map {other : List Char} {move : Span → Span}
    (htakes : ∀ span ∈ spans, ∃ first last, Takes score span first last)
    (hmove : ∀ span first last, Takes score span first last → Takes other (move span) first last) :
    Kern.hasBytesOf other (spans.map move) = Kern.hasBytesOf score spans := by
  funext line
  rw [Kern.hasBytesOf, Kern.hasBytesOf, List.any_map, Bool.eq_iff_iff, List.any_eq_true,
    List.any_eq_true]
  refine exists_congr fun span => and_congr_right fun hspan => ?_
  obtain ⟨first, last, hspanTakes⟩ := htakes span hspan
  have hmoved := hmove span first last hspanTakes
  rw [Function.comp_apply, decide_eq_true_iff, decide_eq_true_iff, hmoved.overlaps_iff,
    hspanTakes.overlaps_iff]

/-- Marking touches the same lines where the lines of all matches are kept. -/
theorem foundAgain_of_keepsLines {pattern : Pattern} {marked : MarkedScore} {other : List Char}
    (hmark : markScore score pattern.compile.expression marker = .ok marked)
    (hkeeps : pattern.syntaxTree.factored.KeepsLines score other) :
    marked.FoundAgain pattern.compile.expression score other := by
  obtain ⟨spans, hlocate, hspans⟩ := exists_of_markScore hmark
  obtain ⟨rfl, hfound⟩ := exists_of_locate hlocate
  obtain ⟨move, hmoved, hmove⟩ := hkeeps.found
  have htakes := exists_takes_of_locate hlocate
  generalize pattern.syntaxTree.factored.spansFrom 0 true 0 score = spans at *
  have hbytes := hasBytesOf_map htakes hmove
  obtain ⟨hempty, rfl⟩ := (markSpans_eq_ok_iff htakes).mp hspans
  refine ⟨spans, spans.map move, hlocate, hmoved ▸ hfound other, List.length_map ..,
    fun again => ?_⟩
  have hagain := markSpans_of_keepsLines hempty htakes hkeeps hmove again
  refine ⟨exactlyMarked other (spans.map move) again, ?_, ?_⟩
  · rw [markScore, hfound, hmoved]
    exact congrArg (Except.mapError SearchError.line) hagain
  · obtain ⟨more, hmore⟩ := Nat.exists_eq_add_of_le hkeeps.length_le
    rw [exactlyMarked, exactlyMarked, hmore, List.range_add, List.filter_append, hbytes,
      List.append_right_eq_self, List.filter_eq_nil_iff]
    intro line hline
    obtain ⟨count, -, rfl⟩ := List.mem_map.mp hline
    rw [hasBytesOf_of_le htakes (by omega)]
    exact Bool.false_ne_true

end Marked

/-- A marked score that is ended by a newline, with the legend if there is anything marked. -/
theorem MarkedScore.humdrum_eq {marked : MarkedScore} {others : List (List Char)}
    (h : marked.lines = others ++ [[]]) :
    marked.markedText = terminatedText others ∧
      (marked.humdrum = marked.markedText ∨
        marked.humdrum = marked.markedText ++ (marked.legend ++ ['\n'])) := by
  have htext : marked.markedText = terminatedText others := by
    rw [markedText, h, Record.unlines_append_singleton, List.append_nil]
  refine ⟨htext, ?_⟩
  rw [humdrum]
  split
  · exact Or.inl rfl
  · right
    have hlegend : others ++ [marked.legend, []] = others ++ [marked.legend] ++ [[]] := by simp
    rw [if_pos (by rw [h, List.getLast?_concat]), htext, h, List.dropLast_concat, hlegend,
      Record.unlines_append_singleton, terminatedText_append]
    simp

/-- A score is its lines, of which the last one is empty if a newline ends the score. -/
private theorem exists_lines (score : List Char) :
    ∃ first tail, lines score = first ++ [tail] ∧ score = terminatedText first ++ tail ∧
      (∀ line ∈ first, '\n' ∉ line) ∧ (score.getLast? = some '\n' → tail = []) := by
  have hne : lines score ≠ [] := List.splitOn_ne_nil '\n' score
  obtain ⟨first, tail, hlines⟩ : ∃ first tail, lines score = first ++ [tail] :=
    ⟨_, _, (List.dropLast_concat_getLast hne).symm⟩
  have hmem : ∀ line ∈ first ++ [tail], '\n' ∉ line := by
    rw [← hlines]
    exact fun line => Record.not_mem_of_mem_splitOn
  have hscore : score = terminatedText first ++ tail := by
    rw [← Record.unlines_append_singleton, ← hlines, Kern.unlines_lines]
  refine ⟨first, tail, hlines, hscore, fun line hline => hmem line (by simp [hline]), ?_⟩
  intro hlast
  rw [hscore] at hlast
  by_contra htail
  rw [List.getLast?_append_of_ne_nil _ htail] at hlast
  exact hmem tail (by simp) (List.mem_of_getLast? hlast)

/-- What is found in a marked score is what has been marked, with the legend or without it. -/
theorem foundAgain_markScore (pattern : Pattern) (score : List Char) {marker : Char}
    (hmarker : marker ∉ "abcdefgABCDEFGn#-\n".toList) {marked : MarkedScore}
    (h : markScore score pattern.compile.expression marker = .ok marked) :
    marked.FoundAgain pattern.compile.expression score marked.markedText ∧
      (score.getLast? = some '\n' →
        marked.FoundAgain pattern.compile.expression score marked.humdrum ∧
          locate marked.humdrum pattern.compile.expression =
            locate marked.markedText pattern.compile.expression) := by
  have hleads := pattern.leads_factored
  have hends := Record.contains_pitchEnds hmarker
  obtain ⟨first, tail, hlines, hscore, hfirst, htail⟩ := exists_lines score
  obtain ⟨rfl, others, hothers, hmarked⟩ := exists_markedLines hlines h
  have hnewline := Record.ne_newline_of_pitchEnds hends
  have hkeeps : pattern.syntaxTree.factored.KeepsLines score marked.markedText := by
    have htext : marked.markedText = terminatedText others ++ tail := by
      rw [MarkedScore.markedText, hothers, Record.unlines_append_singleton]
    rw [htext, hscore]
    exact Regex.keepsLines_of_markedLines hleads hends hmarked (List.forall_mem_nil _) hfirst
      tail
  refine ⟨foundAgain_of_keepsLines h hkeeps, fun hlast => ?_⟩
  obtain rfl := htail hlast
  obtain ⟨htext, hsame | hlegend⟩ := marked.humdrum_eq hothers
  · rw [hsame]
    exact ⟨foundAgain_of_keepsLines h hkeeps, rfl⟩
  · have hotherLines := newline_notMem_of_markedLines hmarked hnewline hfirst
    have hcontrol := MarkedScore.isControl_legend hnewline
    have hpassed := Regex.passesOver_legend hleads hnewline
    have happended := Regex.keepsLines_append_control hleads hotherLines
      (MarkedScore.newline_notMem_legend hnewline) hcontrol hpassed
    rw [← htext, ← hlegend] at happended
    refine ⟨foundAgain_of_keepsLines h (hkeeps.trans happended), ?_⟩
    rw [locate_compile, locate_compile, hlegend, htext,
      Regex.spansFrom_append_control hleads hcontrol hpassed
        (Record.lineStartAfter_terminatedText others)]

/-- Two notes with a comment between them, which is marked as well. -/
theorem foundAgain_markScore_comment :
    '@' ∉ "abcdefgABCDEFGn#-\n".toList ∧ "4c\n!\n4d\n".toList.getLast? = some '\n' ∧
      ∃ marked, markScore "4c\n!\n4d\n".toList
          (Pattern.sequence [.quarterNote .c, .quarterNote .d]).compile.expression '@' =
            .ok marked ∧
        marked.markedText = "4c@\n!@\n4d@\n".toList ∧
        marked.humdrum = "4c@\n!@\n4d@\n!!!RDF**kern: @ = marked note\n".toList ∧
        marked.FoundAgain
          (Pattern.sequence [.quarterNote .c, .quarterNote .d]).compile.expression
          "4c\n!\n4d\n".toList marked.markedText ∧
        marked.FoundAgain
          (Pattern.sequence [.quarterNote .c, .quarterNote .d]).compile.expression
          "4c\n!\n4d\n".toList marked.humdrum := by
  have hmarker : '@' ∉ "abcdefgABCDEFGn#-\n".toList := by decide
  have hlast : "4c\n!\n4d\n".toList.getLast? = some '\n' := by decide
  have hlocate : locate "4c\n!\n4d\n".toList
      (Pattern.sequence [.quarterNote .c, .quarterNote .d]).compile.expression = .ok [⟨0, 8⟩] := rfl
  have hfirst : (LineMap.ofScore "4c\n!\n4d\n".toList).lineOf 0 = .ok 0 := by decide +kernel
  have hlineOf : (LineMap.ofScore "4c\n!\n4d\n".toList).lineOf 6 = .ok 2 := by decide +kernel
  have hspans : markSpans "4c\n!\n4d\n".toList [⟨0, 8⟩] '@' =
      .ok (.ofTouched "4c\n!\n4d\n".toList '@' [0, 1, 2]) := by
    refine markSpans_eq_ofTouched ?_ (by decide) fun line => ?_
    · change ∀ offset ∈ [0, 6], _
      exact List.forall_mem_cons.mpr ⟨⟨0, hfirst⟩, List.forall_mem_singleton.mpr ⟨2, hlineOf⟩⟩
    · have hlong : ¬ (⟨0, 8⟩ : Span).IsShort := by decide
      simp only [List.mem_cons, List.not_mem_nil, or_false, exists_eq_left,
        Span.touches_iff hlong hfirst hlineOf]
      omega
  have hmark : markScore "4c\n!\n4d\n".toList
      (Pattern.sequence [.quarterNote .c, .quarterNote .d]).compile.expression '@' =
        .ok ⟨["4c@".toList, "!@".toList, "4d@".toList, []], [0, 1, 2], '@'⟩ := by
    rw [markScore, hlocate]
    exact congrArg (Except.mapError SearchError.line) hspans
  obtain ⟨htext, hhumdrum⟩ :=
    foundAgain_markScore (.sequence [.quarterNote .c, .quarterNote .d]) _ hmarker hmark
  exact ⟨hmarker, hlast, _, hmark, rfl, rfl, htext, (hhumdrum hlast).1⟩

end MotifSearch
