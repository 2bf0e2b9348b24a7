import MotifSearch.Proofs.Record.Notes
import MotifSearch.Proofs.Record.Preferred
import MotifSearch.Proofs.Record.Succession
import MotifSearch.Proofs.Search.Spans

/-!
# Searching around records without notes

What happens to the matches in a score when a record without notes is inserted between two of its
lines. The matches before it stay, and those after it move on. A match that contains the place
either takes the new record in, or else is cut there. A match can only be cut where its part before
the place is a match as well, as in a repeated group: there, skipping the record comes after giving
up further repetitions.

## Main definitions

* `Span.pushed` — a span after something has been inserted into the text
* `Regex.PassesOver` — nothing is found within a line
* `Regex.IsCutAt` — a match is cut where a record without notes is inserted

## Main results

* `passesOver_control` — a line without notes and without tabs is passed over
* `spansFrom_insert` — all matches are pushed on, or else one of them is cut
* `spansFrom_controls`, `spansFrom_append_controls` — records without notes at the two ends of a
  text
* `locate_insert` — the matches of a pattern before and after the insertion
-/

namespace MotifSearch

open Text (byteLength)

/-- A span after `distance` bytes have been inserted at `place`. What begins at the place is moved
on, and so is the end of what goes on beyond it. -/
def Span.pushed (place distance : Nat) (span : Span) : Span :=
  ⟨if place ≤ span.start then span.start + distance else span.start,
    if place < span.stop then span.stop + distance else span.stop⟩

theorem Span.pushed_of_le {place distance : Nat} {span : Span} (h : place ≤ span.start)
    (hlt : span.start < span.stop) :
    span.pushed place distance = ⟨span.start + distance, span.stop + distance⟩ := by
  rw [pushed, if_pos h, if_pos (Nat.lt_of_le_of_lt h hlt)]

theorem Span.pushed_of_stop_le {place distance : Nat} {span : Span} (hlt : span.start < place)
    (h : span.stop ≤ place) : span.pushed place distance = span := by
  rw [pushed, if_neg (Nat.not_le.mpr hlt), if_neg (Nat.not_lt.mpr h)]

theorem Span.pushed_of_lt {place distance : Nat} {span : Span} (hlt : span.start < place)
    (h : place < span.stop) : span.pushed place distance = ⟨span.start, span.stop + distance⟩ := by
  rw [pushed, if_neg (Nat.not_le.mpr hlt), if_pos h]

/-- What is found after the place is moved on. -/
theorem Regex.map_pushed_spansFrom (regex : Regex) (skip : Nat) (atLineStart : Bool)
    {place offset : Nat} (hplace : place ≤ offset) (distance : Nat) (text : List Char) :
    (regex.spansFrom skip atLineStart offset text).map (Span.pushed place distance) =
      regex.spansFrom skip atLineStart (offset + distance) text := by
  rw [spansFrom_add]
  apply List.map_congr_left
  intro span hspan
  obtain ⟨hstart, hlt⟩ := bounds_of_mem_spansFrom hspan
  exact Span.pushed_of_le (Nat.le_trans hplace (Nat.le_of_add_right_le hstart)) hlt

namespace Regex

variable {regex : Regex} {offset : Nat} {atLineStart : Bool} {before line text : List Char}
variable {c : Char}

/-- Nothing is found within a line, whatever follows. -/
def PassesOver (regex : Regex) (line : List Char) : Prop :=
  ∀ offset text, regex.spansFrom 0 true offset (line ++ text) =
    regex.spansFrom 0 true (offset + byteLength line) text

section Line

variable (h : Leads Record.matchedControl regex .between .between)
include h

/-- Nothing is found within the control character of a line without notes, nor within its newline.
-/
theorem passesOver_of_forall {rest : List Char} (hc : Record.controls.contains c = true)
    (hrest : ∀ offset text, regex.spansFrom 0 false offset (rest ++ '\n' :: text) =
      regex.spansFrom 0 false (offset + byteLength rest) ('\n' :: text)) :
    regex.PassesOver (c :: (rest ++ ['\n'])) := by
  intro offset text
  have hfirst : Mode.between.step true c = none := Mode.afterBetween?_eq_none (Or.inr hc)
  have hlast : Mode.between.step false '\n' = none := rfl
  have hnewline : (c == '\n') = false := by
    rcases Record.contains_controls.mp hc with rfl | rfl | rfl | rfl <;> rfl
  rw [show c :: (rest ++ ['\n']) ++ text = c :: (rest ++ '\n' :: text) by simp,
    spansFrom_of_no_match (getD_preferredLength h hfirst _) rfl, hnewline, hrest,
    spansFrom_of_no_match (getD_preferredLength h hlast text) rfl]
  simp [Nat.add_assoc]

/-- Nothing is found within a line without notes that has no tab in it. -/
theorem passesOver_control (hline : Record.IsControl line) (htab : '\t' ∉ line) :
    regex.PassesOver line := by
  obtain ⟨c, rest, rfl, hc, hrest⟩ := hline
  have htabs : '\t' ∉ rest := fun hmem => htab (by simp [hmem])
  exact passesOver_of_forall h hc fun offset text => spansFrom_token h hrest htabs

end Line

/-- The match that a span stands for is cut where a record without notes is inserted after `before`,
which begins at byte `offset`: the part of it that comes before the place is a match, which is found
instead. The search then begins anew after the record. -/
structure IsCutAt (regex : Regex) (line : List Char) (atLineStart : Bool) (offset : Nat)
    (before text : List Char) (old new : List Span) (span : Span) : Prop where
  start_lt : span.start < offset + byteLength before
  lt_stop : offset + byteLength before < span.stop
  instead : ∃ first last, old = first ++ span :: last ∧
    new = first ++ ⟨span.start, offset + byteLength before⟩ ::
      regex.spansFrom 0 true (offset + byteLength before + byteLength line) text
  matches_before : ∃ first last, before = first ++ last ∧
    span.start = offset + byteLength first ∧
    regex.meaning (lineStartAfter atLineStart first) last text

variable {old new : List Span} {span : Span}

theorem IsCutAt.step
    (h : IsCutAt regex line (c == '\n') (offset + c.utf8Size) before text old new span) :
    IsCutAt regex line atLineStart offset (c :: before) text old new span := by
  have hplace : offset + c.utf8Size + byteLength before = offset + byteLength (c :: before) := by
    rw [Text.byteLength_cons, Nat.add_assoc]
  obtain ⟨hstart, hstop, hinstead, first, last, rfl, hfirst, hmeaning⟩ := h
  rw [hplace] at hstart hstop hinstead
  refine ⟨hstart, hstop, hinstead, c :: first, last, rfl, ?_, hmeaning⟩
  rw [hfirst, Text.byteLength_cons, Nat.add_assoc]

theorem IsCutAt.cons (other : Span)
    (h : IsCutAt regex line atLineStart offset before text old new span) :
    IsCutAt regex line atLineStart offset before text (other :: old) (other :: new) span := by
  obtain ⟨hstart, hstop, ⟨first, last, rfl, rfl⟩, hmatches⟩ := h
  exact ⟨hstart, hstop, ⟨other :: first, last, rfl, rfl⟩, hmatches⟩

/-- How the spans change when a record without notes is inserted after `before`: either all of them
are pushed on, or one of them is cut. -/
def Pushed (regex : Regex) (line : List Char) (atLineStart : Bool) (offset : Nat)
    (before text : List Char) (old new : List Span) : Prop :=
  new = old.map (Span.pushed (offset + byteLength before) (byteLength line)) ∨
    ∃ span, IsCutAt regex line atLineStart offset before text old new span

theorem Pushed.step
    (h : Pushed regex line (c == '\n') (offset + c.utf8Size) before text old new) :
    Pushed regex line atLineStart offset (c :: before) text old new := by
  rcases h with rfl | ⟨span, hcut⟩
  · left
    rw [Text.byteLength_cons, Nat.add_assoc]
  · exact Or.inr ⟨span, hcut.step⟩

/-- A match that ends before the place stays. -/
theorem Pushed.cons (hstart : span.start < offset + byteLength before)
    (hstop : span.stop ≤ offset + byteLength before)
    (h : Pushed regex line atLineStart offset before text old new) :
    Pushed regex line atLineStart offset before text (span :: old) (span :: new) := by
  rcases h with rfl | ⟨other, hcut⟩
  · left
    rw [List.map_cons, Span.pushed_of_stop_le hstart hstop]
  · exact Or.inr ⟨other, hcut.cons span⟩

private theorem pushed_of_no_match
    (hold : (regex.preferredLength atLineStart (c :: before ++ text)).getD 0 = 0)
    (hnew : (regex.preferredLength atLineStart (c :: before ++ (line ++ text))).getD 0 = 0)
    (hrest : Pushed regex line (c == '\n') (offset + c.utf8Size) before text
      (regex.spansFrom 0 (c == '\n') (offset + c.utf8Size) (before ++ text))
      (regex.spansFrom 0 (c == '\n') (offset + c.utf8Size) (before ++ (line ++ text)))) :
    Pushed regex line atLineStart offset (c :: before) text
      (regex.spansFrom 0 atLineStart offset (c :: before ++ text))
      (regex.spansFrom 0 atLineStart offset (c :: before ++ (line ++ text))) := by
  rw [spansFrom_of_no_match hold rfl, spansFrom_of_no_match hnew rfl]
  exact hrest.step

section Insert

variable (h : Leads Record.matchedControl regex .between .between)
variable (hline : Record.IsControl line) (hpassed : regex.PassesOver line)
include h hline hpassed

/-- A match that goes on beyond the place is pushed on, or else it is cut there. -/
private theorem pushed_of_lt (hne : before ≠ [])
    (hbefore : lineStartAfter atLineStart before = true) {count : Nat} (hcount : 0 < count)
    (hmatch : regex.preferredLength atLineStart (before ++ text) = some (before.length + count)) :
    Pushed regex line atLineStart offset before text
      (regex.spansFrom 0 atLineStart offset (before ++ text))
      (regex.spansFrom 0 atLineStart offset (before ++ (line ++ text))) := by
  obtain ⟨hlength, -⟩ := meaning_of_preferredLength hmatch
  -- The part of the match after the place is not empty.
  obtain ⟨word, rest, rfl, rfl⟩ : ∃ word rest, text = word ++ rest ∧ word.length = count := by
    rw [List.length_append] at hlength
    exact ⟨text.take count, text.drop count, (List.take_append_drop ..).symm,
      List.length_take_of_le (by omega)⟩
  have hword : word ≠ [] := List.ne_nil_of_length_pos hcount
  have hplace : offset < offset + byteLength before :=
    Nat.lt_add_of_pos_right (Text.byteLength_pos hne)
  have hlt : offset + byteLength before < offset + byteLength (before ++ word) := by
    have hpos := Text.byteLength_pos hword
    rw [Text.byteLength_append]
    omega
  have hold : regex.spansFrom 0 atLineStart offset (before ++ word ++ rest) = _ :=
    spansFrom_of_match (by simpa using hmatch) (by simp [hne])
  rw [List.append_assoc] at hold
  rw [hold]
  rcases preferredLength_insert_of_lt h hline hne hbefore hmatch (by omega) with
    hnew | ⟨hnew, hmeaning⟩
  · -- The match takes the line in, and the search goes on where it did.
    left
    have hmoved : regex.spansFrom 0 atLineStart offset (before ++ (line ++ word) ++ rest) = _ :=
      spansFrom_of_match (by simpa [Nat.add_right_comm, Nat.add_assoc] using hnew) (by simp [hne])
    rw [List.append_assoc, List.append_assoc] at hmoved
    have hstop : offset + byteLength (before ++ (line ++ word)) =
        offset + byteLength (before ++ word) + byteLength line := by
      simp only [Text.byteLength_append]
      omega
    have hstart : lineStartAfter atLineStart (before ++ (line ++ word)) =
        lineStartAfter atLineStart (before ++ word) := by
      rw [lineStartAfter_append, lineStartAfter_append, hline.lineStartAfter_eq,
        lineStartAfter_append, hbefore]
    rw [hmoved, List.map_cons, Span.pushed_of_lt hplace hlt,
      map_pushed_spansFrom regex 0 _ (Nat.le_of_lt hlt), hstop, hstart]
  · -- The match stops before the line, and the search passes over the line and begins anew.
    right
    have hcut : regex.spansFrom 0 atLineStart offset (before ++ (line ++ (word ++ rest))) = _ :=
      spansFrom_of_match hnew hne
    refine ⟨_, hplace, hlt, ⟨[], _, rfl, ?_⟩, [], before, rfl, rfl, hmeaning⟩
    rw [hcut, hbefore, hpassed]
    rfl

/-- All matches are pushed on where a record without notes is inserted, or else one of them is
cut. -/
theorem spansFrom_insert {skip : Nat} (hskip : skip ≤ before.length)
    (hbefore : lineStartAfter atLineStart before = true) :
    Pushed regex line atLineStart offset before text
      (regex.spansFrom skip atLineStart offset (before ++ text))
      (regex.spansFrom skip atLineStart offset (before ++ (line ++ text))) := by
  -- The invariant is that a match reported before does not go on beyond the place.
  induction before generalizing skip atLineStart offset with
  | nil =>
    obtain rfl : atLineStart = true := hbefore
    obtain rfl : skip = 0 := Nat.le_zero.mp hskip
    left
    rw [List.nil_append, List.nil_append, hpassed, Text.byteLength_nil, Nat.add_zero,
      map_pushed_spansFrom regex 0 true (Nat.le_refl _)]
  | cons c before ih =>
    cases skip with
    | succ skip => exact (ih (Nat.le_of_succ_le_succ hskip) hbefore).step
    | zero =>
      have hstart : lineStartAfter atLineStart (c :: before) = true := hbefore
      rcases hlength : regex.preferredLength atLineStart (c :: before ++ text) with _ | _ | more
      · have hnew := preferredLength_insert_of_none h hline (by simp) hstart hlength
        exact pushed_of_no_match (by rw [hlength]; rfl) (by rw [hnew]; rfl)
          (ih (Nat.zero_le _) hbefore)
      · have hnew := preferredLength_insert_of_le h hline (by simp) hstart hlength (Nat.zero_le _)
        exact pushed_of_no_match (by rw [hlength]; rfl) (by rw [hnew]; rfl)
          (ih (Nat.zero_le _) hbefore)
      · by_cases hle : more + 1 ≤ (c :: before).length
        · -- The match ends before the place, so it is found as it was.
          have hnew := preferredLength_insert_of_le h hline (by simp) hstart hlength hle
          rw [spansFrom_of_some hlength rfl, spansFrom_of_some hnew rfl,
            List.take_append_of_le_length hle, List.take_append_of_le_length hle]
          have hplace : offset < offset + byteLength (c :: before) :=
            Nat.lt_add_of_pos_right (Text.byteLength_pos (by simp))
          have hstop : byteLength ((c :: before).take (more + 1)) ≤ byteLength (c :: before) := by
            conv => rhs; rw [← List.take_append_drop (more + 1) (c :: before)]
            rw [Text.byteLength_append]
            exact Nat.le_add_right ..
          exact (ih (Nat.le_of_succ_le_succ hle) hbefore).step.cons hplace
            (Nat.add_le_add_left hstop offset)
        · obtain ⟨count, hcount, hmore⟩ : ∃ count, 0 < count ∧
              more + 1 = (c :: before).length + count :=
            ⟨more + 1 - (c :: before).length, by omega, by omega⟩
          rw [hmore] at hlength
          exact pushed_of_lt h hline hpassed (by simp) hstart hcount hlength

/-- Nothing changes where a record without notes is added at the end: no match goes on beyond it. -/
theorem spansFrom_append_control (hbefore : lineStartAfter atLineStart before = true) :
    regex.spansFrom 0 atLineStart offset (before ++ line) =
      regex.spansFrom 0 atLineStart offset before := by
  have hstop : ∀ span ∈ regex.spansFrom 0 atLineStart offset before,
      span.stop ≤ offset + byteLength before := fun _ => stop_le_of_mem_spansFrom
  have hinsert : regex.Pushed line atLineStart offset before [] _ _ :=
    spansFrom_insert h hline hpassed (Nat.zero_le _) hbefore
  rw [List.append_nil, List.append_nil] at hinsert
  rcases hinsert with hpushed | ⟨span, hcut⟩
  · rw [hpushed]
    refine (List.map_congr_left fun span hspan => ?_).trans (List.map_id _)
    obtain ⟨-, hlt⟩ := bounds_of_mem_spansFrom hspan
    exact Span.pushed_of_stop_le (Nat.lt_of_lt_of_le hlt (hstop span hspan)) (hstop span hspan)
  · obtain ⟨-, hbeyond, ⟨first, last, hold, -⟩, -⟩ := hcut
    exact absurd (hstop span (hold ▸ by simp)) (Nat.not_le.mpr hbeyond)

end Insert

section Comments

open Record (IsControl terminatedText terminatedText_cons)

variable (h : Leads Record.matchedControl regex .between .between) {lines : List (List Char)}
variable (hlines : ∀ line ∈ lines, IsControl (line ++ ['\n']) ∧ '\t' ∉ line)
include h hlines

/-- Records without notes in front of a text are passed over. -/
theorem spansFrom_controls :
    regex.spansFrom 0 true offset (terminatedText lines ++ text) =
      regex.spansFrom 0 true (offset + byteLength (terminatedText lines)) text := by
  induction lines generalizing offset with
  | nil => rfl
  | cons line lines ih =>
    obtain ⟨⟨hline, htab⟩, hlines⟩ := List.forall_mem_cons.mp hlines
    have hsplit : terminatedText (line :: lines) = line ++ ['\n'] ++ terminatedText lines := by simp
    rw [hsplit, List.append_assoc, passesOver_control h hline (by simpa using htab), ih hlines,
      Text.byteLength_append _ (terminatedText lines), Nat.add_assoc]

/-- Records without notes after a text change nothing. -/
theorem spansFrom_append_controls (hbefore : lineStartAfter atLineStart before = true) :
    regex.spansFrom 0 atLineStart offset (before ++ terminatedText lines) =
      regex.spansFrom 0 atLineStart offset before := by
  induction lines generalizing before with
  | nil => rw [Record.terminatedText_nil, List.append_nil]
  | cons line lines ih =>
    obtain ⟨⟨hline, htab⟩, hlines⟩ := List.forall_mem_cons.mp hlines
    have hsplit : before ++ terminatedText (line :: lines) =
        before ++ (line ++ ['\n']) ++ terminatedText lines := by simp
    have hafter : lineStartAfter atLineStart (before ++ (line ++ ['\n'])) = true := by
      rw [lineStartAfter_append, hline.lineStartAfter_eq]
    have hpassed := passesOver_control h hline (by simpa using htab)
    rw [hsplit, ih hlines hafter, spansFrom_append_control h hline hpassed hbefore]

end Comments

end Regex

section Counting

variable {spans : List Span} {span other : Span}

/-- Spans that do not overlap and are not empty differ in where they begin. -/
private theorem eq_of_start_lt_stop
    (h : spans.Pairwise fun first second => first.stop ≤ second.start)
    (hspan : span ∈ spans) (hother : other ∈ spans) (hlt : span.start < other.stop)
    (hlt' : other.start < span.stop) : span = other := by
  induction h with
  | nil => cases hspan
  | @cons first spans hfirst _ ih =>
    rcases List.mem_cons.mp hspan with rfl | hspan
    · rcases List.mem_cons.mp hother with rfl | hother
      · rfl
      · have hle := hfirst other hother
        omega
    · rcases List.mem_cons.mp hother with heq | hother
      · have hle := hfirst span hspan
        rw [← heq] at hle
        omega
      · exact ih hspan hother

/-- A span that goes on beyond a place is cut there if what comes before the place is found
instead. -/
structure Span.IsCut (place : Nat) (found : List Span) (span : Span) : Prop where
  start_lt : span.start < place
  lt_stop : place < span.stop
  mem : ⟨span.start, place⟩ ∈ found

/-- Nothing is cut where all spans are pushed on. -/
private theorem not_isCut_map_pushed
    (h : spans.Pairwise fun first second => first.stop ≤ second.start)
    (hlt : ∀ span ∈ spans, span.start < span.stop) (place distance : Nat) (hspan : span ∈ spans) :
    ¬ span.IsCut place (spans.map (Span.pushed place distance)) := by
  intro hcut
  obtain ⟨hstart, hstop, hmem⟩ := hcut
  -- What is found instead would be a span that ends in the place and overlaps with this one.
  obtain ⟨other, hother, hpushed⟩ := List.mem_map.mp hmem
  have hne := hlt other hother
  by_cases hle : place ≤ other.start
  · rw [Span.pushed_of_le hle hne, Span.mk.injEq] at hpushed
    omega
  · by_cases hgoes : place < other.stop
    · rw [Span.pushed_of_lt (Nat.not_le.mp hle) hgoes, Span.mk.injEq] at hpushed
      omega
    · rw [Span.pushed_of_stop_le (Nat.not_le.mp hle) (Nat.not_lt.mp hgoes)] at hpushed
      subst hpushed
      have heq := eq_of_start_lt_stop h hspan hother hstart (Nat.lt_trans hstart hstop)
      have hstops := congrArg Span.stop heq
      exact Nat.ne_of_gt hstop hstops

/-- Those spans after a span that goes on beyond a place are the ones that begin after the place. -/
private theorem countP_after {first last : List Span} {place : Nat}
    (h : (first ++ span :: last).Pairwise fun first second => first.stop ≤ second.start)
    (hlt : ∀ other ∈ first, other.start < other.stop) (hstart : span.start < place)
    (hstop : place < span.stop) :
    (first ++ span :: last).countP (fun other => place ≤ other.start) = last.length := by
  obtain ⟨-, hspan, hfirst⟩ := List.pairwise_append.mp h
  obtain ⟨hlast, -⟩ := List.pairwise_cons.mp hspan
  have hbefore : first.countP (fun other => place ≤ other.start) = 0 := by
    rw [List.countP_eq_zero]
    intro other hother
    have hle := hfirst other hother span List.mem_cons_self
    have hne := hlt other hother
    rw [decide_eq_true_eq]
    omega
  have hafter : last.countP (fun other => place ≤ other.start) = last.length := by
    rw [List.countP_eq_length]
    intro other hother
    have hle := hlast other hother
    rw [decide_eq_true_eq]
    omega
  rw [List.countP_append, List.countP_cons_of_neg (by simpa using hstart), hbefore, hafter,
    Nat.zero_add]

variable {regex : Regex} {line before text : List Char} {old new : List Span}

private theorem mem_and_isCut (hcut : regex.IsCutAt line true 0 before text old new span) :
    span ∈ old ∧ span.IsCut (byteLength before) new := by
  obtain ⟨hstart, hstop, ⟨first, last, rfl, rfl⟩, -⟩ := hcut
  rw [Nat.zero_add] at hstart hstop
  rw [Nat.zero_add]
  exact ⟨by simp, hstart, hstop, by simp⟩

/-- Only the span that has been found to be cut is cut. -/
private theorem eq_of_isCut (h : old.Pairwise fun first second => first.stop ≤ second.start)
    (hcut : regex.IsCutAt line true 0 before text old new span) (hother : other ∈ old)
    (hother' : other.IsCut (byteLength before) new) : other = span := by
  obtain ⟨hstart, hstop, ⟨first, last, rfl, -⟩, -⟩ := hcut
  rw [Nat.zero_add] at hstart hstop
  exact eq_of_start_lt_stop h hother (by simp) (Nat.lt_trans hother'.start_lt hstop)
    (Nat.lt_trans hstart hother'.lt_stop)

private theorem matches_before (hcut : regex.IsCutAt line true 0 before text old new span) :
    regex.meaning.Matches (before ++ text) ⟨span.start, byteLength before⟩ := by
  obtain ⟨-, -, -, first, last, rfl, hfirst, hmeaning⟩ := hcut
  refine ⟨first, last, text, List.append_assoc .., ?_, hmeaning⟩
  rw [hfirst, Nat.zero_add]

/-- A span that is cut is followed by what is found after the place on its own. -/
private theorem length_eq_iff (h : old.Pairwise fun first second => first.stop ≤ second.start)
    (hlt : ∀ span ∈ old, span.start < span.stop)
    (hcut : regex.IsCutAt line true 0 before text old new span) :
    new.length = old.length ↔ (regex.spansFrom 0 true 0 text).length =
      old.countP fun other => byteLength before ≤ other.start := by
  obtain ⟨hstart, hstop, ⟨first, last, rfl, rfl⟩, -⟩ := hcut
  rw [Nat.zero_add] at hstart hstop
  rw [countP_after h (fun other hother => hlt other (by simp [hother])) hstart hstop,
    ← regex.length_spansFrom 0 true (0 + byteLength before + byteLength line)]
  simp

end Counting

section Locate

variable {before after line : List Char} {spans : List Span}

/-- When a record without notes is inserted between two lines, all matches are pushed on unless one
of them is cut there, which can only happen where its part before the place is a match as well. The
number of matches stays the same unless one is cut and there are more or fewer matches after the
place on its own than there were before. -/
theorem locate_insert (pattern : Pattern) (hbefore : lineStartAfter true before = true)
    (hline : Record.IsControl line) (htab : '\t' ∉ line)
    (h : locate (before ++ after) pattern.compile.expression = .ok spans) :
    ∃ moved fresh, locate (before ++ (line ++ after)) pattern.compile.expression = .ok moved ∧
      locate after pattern.compile.expression = .ok fresh ∧
      (moved = spans.map (Span.pushed (byteLength before) (byteLength line)) ↔
        ∀ span ∈ spans, ¬ span.IsCut (byteLength before) moved) ∧
      (moved.length = spans.length ↔ ∀ span ∈ spans, span.IsCut (byteLength before) moved →
        fresh.length = spans.countP fun other => byteLength before ≤ other.start) ∧
      ∀ span ∈ spans, span.IsCut (byteLength before) moved →
        pattern.syntaxTree.meaning.Matches (before ++ after) ⟨span.start, byteLength before⟩ := by
  obtain ⟨rfl, hfound⟩ := exists_of_locate h
  have hpairwise := Regex.pairwise_spansFrom pattern.syntaxTree.factored 0 true 0 (before ++ after)
  have hlt : ∀ span ∈ pattern.syntaxTree.factored.spansFrom 0 true 0 (before ++ after),
      span.start < span.stop := fun span hspan => (Regex.bounds_of_mem_spansFrom hspan).2
  refine ⟨_, _, hfound _, hfound _, ?_⟩
  have hinsert : pattern.syntaxTree.factored.Pushed line true 0 before after _ _ :=
    Regex.spansFrom_insert pattern.leads_factored hline
      (Regex.passesOver_control pattern.leads_factored hline htab) (Nat.zero_le _) hbefore
  -- All three statements come down to whether some span is cut.
  rcases hinsert with hpushed | ⟨span, hcut⟩
  · rw [Nat.zero_add] at hpushed
    have hnone : ∀ span ∈ pattern.syntaxTree.factored.spansFrom 0 true 0 (before ++ after),
        ¬ span.IsCut (byteLength before) _ :=
      fun span hspan => not_isCut_map_pushed hpairwise hlt _ (byteLength line) hspan
    rw [hpushed]
    refine ⟨⟨fun _ => hnone, fun _ => rfl⟩, ?_,
      fun span hspan hcut => absurd hcut (hnone span hspan)⟩
    exact ⟨fun _ span hspan hcut => absurd hcut (hnone span hspan), fun _ => List.length_map ..⟩
  · obtain ⟨hmem, hspan⟩ := mem_and_isCut hcut
    have hcount := length_eq_iff hpairwise hlt hcut
    refine ⟨⟨fun heq => ?_, fun hnone => absurd hspan (hnone span hmem)⟩,
      hcount.trans ⟨fun heq _ _ _ => heq, fun hall => hall span hmem hspan⟩, ?_⟩
    · rw [heq]
      exact fun span hspan => not_isCut_map_pushed hpairwise hlt _ (byteLength line) hspan
    · intro other hother hother'
      obtain rfl := eq_of_isCut hpairwise hcut hother hother'
      rw [← Regex.meaning_factored]
      exact matches_before hcut

set_option maxRecDepth 2000 in
/-- A match of two repeated notes is cut by a comment between them, so that there are two. -/
theorem locate_insert_repeated_note :
    Record.IsControl "!\n".toList ∧
      locate "4c\n4c\n".toList
        (Pattern.group [.note ⟨.any, .any⟩] ⟨some 1, none⟩).compile.expression = .ok [⟨0, 6⟩] ∧
      ∃ moved, locate "4c\n!\n4c\n".toList
          (Pattern.group [.note ⟨.any, .any⟩] ⟨some 1, none⟩).compile.expression = .ok moved ∧
        moved.length = 2 ∧
        (Pattern.group [.note ⟨.any, .any⟩] ⟨some 1, none⟩).syntaxTree.meaning.Matches
          "4c\n4c\n".toList ⟨0, 3⟩ := by
  have hline : Record.IsControl "!\n".toList := ⟨'!', [], rfl, rfl, by decide⟩
  have htwo : locate ("4c\n".toList ++ "4c\n".toList)
      (Pattern.group [.note ⟨.any, .any⟩] ⟨some 1, none⟩).compile.expression = .ok [⟨0, 6⟩] := rfl
  obtain ⟨moved, fresh, hmoved, -, -, -, hmatches⟩ :=
    locate_insert (Pattern.group [.note ⟨.any, .any⟩] ⟨some 1, none⟩) rfl hline (by decide) htwo
  have hcut : locate ("4c\n".toList ++ ("!\n".toList ++ "4c\n".toList))
      (Pattern.group [.note ⟨.any, .any⟩] ⟨some 1, none⟩).compile.expression =
        .ok [⟨0, 3⟩, ⟨5, 8⟩] := rfl
  obtain rfl : moved = [⟨0, 3⟩, ⟨5, 8⟩] := Except.ok.inj (hmoved.symm.trans hcut)
  exact ⟨hline, htwo, _, hcut, rfl, hmatches ⟨0, 6⟩ (by simp) ⟨by decide, by decide, by decide⟩⟩

end Locate

end MotifSearch
