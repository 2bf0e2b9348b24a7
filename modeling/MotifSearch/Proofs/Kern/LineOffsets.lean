import MotifSearch.Kern.Lines
import MotifSearch.Proofs.Record.Succession
import MotifSearch.Proofs.Text.Bytes

/-!
# The line of an offset

A line map looks an offset up by halving the range of lines. The ends of the lines ascend, so that
this finds the first line that ends behind the offset. Up to that line there are as many newlines
as lines, and so it can be told from the bytes of the score alone.

## Main definitions

* `Kern.newlinesBefore` — the number of newlines before a byte offset
* `Kern.lineScan` — the line of an offset, found by going over the lines in order

## Main results

* `partitionPoint_eq` — halving finds how many items pass a test
* `lineOf_eq` — the line that is found, in terms of the ends of the lines
* `lineOf_ofScore_eq` — the line of an offset is the number of newlines before it
-/

namespace MotifSearch

open Text (byteLength)

/-! ### Halving -/

section Halving

variable {α : Type} {test : α → Bool}

/-- Where those that pass the test are those before some point, halving a range around the point
finds it. -/
theorem partitionPoint.go_eq {items : Array α} {point low high : Nat} {hhigh : high ≤ items.size}
    (hpoint : ∀ i (h : i < items.size), test items[i] = true ↔ i < point)
    (hlow : low ≤ point) (hle : point ≤ high) :
    partitionPoint.go test items low high hhigh = point := by
  fun_induction partitionPoint.go test items low high hhigh with
  | case1 low high hhigh hlt middle htest ih =>
    exact ih ((hpoint middle _).mp htest) hle
  | case2 low high hhigh hlt middle htest ih =>
    exact ih hlow (Nat.le_of_not_lt fun hmiddle => htest ((hpoint middle _).mpr hmiddle))
  | case3 low high hhigh hlt => omega

/-- Where no item passes the test after one that does not, those that pass it are the first ones. -/
private theorem test_getElem_iff {items : List α}
    (h : items.Pairwise fun first second => test second = true → test first = true) {i : Nat}
    (hi : i < items.length) : test items[i] = true ↔ i < (items.takeWhile test).length := by
  induction items generalizing i with
  | nil => cases hi
  | cons item items ih =>
    obtain ⟨hitem, hitems⟩ := List.pairwise_cons.mp h
    by_cases htest : test item = true
    · rw [List.takeWhile_cons_of_pos htest, List.length_cons]
      cases i with
      | zero => simp [htest]
      | succ i =>
        rw [List.getElem_cons_succ, ih hitems (Nat.lt_of_succ_lt_succ hi), Nat.succ_lt_succ_iff]
    · have hnone : ¬ test (item :: items)[i] = true := by
        cases i with
        | zero => exact htest
        | succ i => exact fun hlater => htest (hitem _ (List.getElem_mem _) hlater)
      simp [List.takeWhile_cons_of_neg htest, hnone]

/-- Halving finds how many items pass a test, where those that pass it come first. -/
theorem partitionPoint_eq {items : Array α}
    (h : items.toList.Pairwise fun first second => test second = true → test first = true) :
    partitionPoint test items = (items.toList.takeWhile test).length := by
  refine partitionPoint.go_eq (fun i hi => ?_) (Nat.zero_le _) ?_
  · exact test_getElem_iff h hi
  · exact (List.takeWhile_prefix test).length_le

end Halving

/-! ### The ends of the lines -/

namespace Kern

variable {start offset : Nat}

theorem lt_of_mem_lineEnds {whole : List (List Char)} {stop : Nat}
    (h : stop ∈ lineEnds start whole) : start < stop := by
  induction whole generalizing start with
  | nil => cases h
  | cons line whole ih =>
    rcases List.mem_cons.mp h with rfl | h
    · omega
    · have hlater := ih h
      omega

/-- The ends of the lines ascend. -/
theorem pairwise_lineEnds (start : Nat) (whole : List (List Char)) :
    (lineEnds start whole).Pairwise (· < ·) := by
  induction whole generalizing start with
  | nil => exact List.Pairwise.nil
  | cons line whole ih =>
    exact List.pairwise_cons.mpr ⟨fun stop hstop => lt_of_mem_lineEnds hstop, ih _⟩

/-- The number of lines that end before an offset or at it. -/
def linesBefore : List (List Char) → (offset : Nat) → Nat
  | [], _ => 0
  | line :: whole, offset =>
    if offset ≤ byteLength line then 0
    else linesBefore whole (offset - (byteLength line + 1)) + 1

theorem length_takeWhile_lineEnds (whole : List (List Char)) (start offset : Nat) :
    ((lineEnds start whole).takeWhile (· ≤ start + offset)).length = linesBefore whole offset := by
  induction whole generalizing start offset with
  | nil => rfl
  | cons line whole ih =>
    rw [lineEnds, linesBefore]
    by_cases hle : offset ≤ byteLength line
    · rw [if_pos hle, List.takeWhile_cons_of_neg (by simp; omega), List.length_nil]
    · have hrest : start + offset =
          start + byteLength line + 1 + (offset - (byteLength line + 1)) := by omega
      rw [if_neg hle, List.takeWhile_cons_of_pos (by simp; omega), List.length_cons, hrest, ih]

end Kern

open Kern (lines unlines lineEnds linesBefore)

/-- The line of an offset is the number of lines that end before it or at it, unless these are all
lines or an empty line comes before that line or is that line. -/
theorem LineMap.lineOf_eq (score : List Char) (offset : Nat) :
    (LineMap.ofScore score).lineOf offset =
      if linesBefore (lines score) offset < (lines score).length then
        match (lines score).findIdx? List.isEmpty with
        | some empty =>
          if empty ≤ linesBefore (lines score) offset then .error (.emptyLine empty)
          else .ok (linesBefore (lines score) offset)
        | none => .ok (linesBefore (lines score) offset)
      else .error (.offsetOutOfRange offset (byteLength score)) := by
  have hascending : (LineMap.ofScore score).ends.toList.Pairwise fun first second =>
      decide (second ≤ offset) = true → decide (first ≤ offset) = true := by
    refine (Kern.pairwise_lineEnds 0 (lines score)).imp fun hlt hle => ?_
    rw [decide_eq_true_iff] at hle ⊢
    omega
  have hpoint : partitionPoint (· ≤ offset) (LineMap.ofScore score).ends =
      linesBefore (lines score) offset := by
    rw [partitionPoint_eq hascending, ← Kern.length_takeWhile_lineEnds (lines score) 0 offset,
      Nat.zero_add]
    rfl
  rw [lineOf, hpoint, lineCount_ofScore]
  rfl

/-! ### Newlines -/

namespace Text

/-- The byte of a newline. -/
def newlineByte : UInt8 := 10

private theorem ofNat_ne_newlineByte {n : Nat} (h : n ≠ 10) (hlt : n < 256) :
    newlineByte ≠ UInt8.ofNat n := by
  intro heq
  have hnat := congrArg UInt8.toNat heq
  rw [UInt8.toNat_ofNat_of_lt' hlt] at hnat
  exact h hnat.symm

/-- The byte of a newline is a byte of no other character. -/
theorem newlineByte_notMem_utf8EncodeChar {c : Char} (h : c ≠ '\n') :
    newlineByte ∉ String.utf8EncodeChar c := by
  have hother : c.val.toNat ≠ 10 := fun heq => h (Char.ext (UInt32.toNat_inj.mp heq))
  rw [String.utf8EncodeChar]
  -- A character of more than one byte has no byte below 128.
  split
  · rw [List.mem_singleton]
    exact ofNat_ne_newlineByte hother (by omega)
  · split
    · simp only [List.mem_cons, List.not_mem_nil, or_false, not_or]
      exact ⟨ofNat_ne_newlineByte (by omega) (by omega),
        ofNat_ne_newlineByte (by omega) (by omega)⟩
    · split
      · simp only [List.mem_cons, List.not_mem_nil, or_false, not_or]
        exact ⟨ofNat_ne_newlineByte (by omega) (by omega),
          ofNat_ne_newlineByte (by omega) (by omega), ofNat_ne_newlineByte (by omega) (by omega)⟩
      · simp only [List.mem_cons, List.not_mem_nil, or_false, not_or]
        exact ⟨ofNat_ne_newlineByte (by omega) (by omega),
          ofNat_ne_newlineByte (by omega) (by omega), ofNat_ne_newlineByte (by omega) (by omega),
          ofNat_ne_newlineByte (by omega) (by omega)⟩

theorem count_utf8_of_notMem {text : List Char} (h : '\n' ∉ text) :
    (utf8 text).count newlineByte = 0 := by
  rw [List.count_eq_zero, utf8, List.mem_flatMap]
  rintro ⟨c, hc, hmem⟩
  exact newlineByte_notMem_utf8EncodeChar (fun heq => h (heq ▸ hc)) hmem

end Text

namespace Kern

/-- The number of newlines before a byte offset. -/
def newlinesBefore (score : List Char) (offset : Nat) : Nat :=
  ((Text.utf8 score).take offset).count Text.newlineByte

variable {text : List Char} {offset later line : Nat}

theorem newlinesBefore_of_notMem (h : '\n' ∉ text) (offset : Nat) :
    newlinesBefore text offset = 0 := by
  rw [newlinesBefore, ← Nat.le_zero, ← Text.count_utf8_of_notMem h]
  exact (List.take_sublist offset _).count_le _

/-- Behind the first newline of a text there is one newline more. -/
theorem newlinesBefore_append_newline (h : '\n' ∉ text) (rest : List Char) (offset : Nat) :
    newlinesBefore (text ++ '\n' :: rest) offset =
      if offset ≤ byteLength text then 0
      else newlinesBefore rest (offset - (byteLength text + 1)) + 1 := by
  have hnewline : Text.utf8 ('\n' :: rest) = Text.newlineByte :: Text.utf8 rest := rfl
  have hfirst : ((Text.utf8 text).take offset).count Text.newlineByte = 0 :=
    newlinesBefore_of_notMem h offset
  rw [newlinesBefore, Text.utf8_append, List.take_append, List.count_append, hfirst,
    Text.length_utf8, hnewline, Nat.zero_add]
  split
  · next hle => rw [Nat.sub_eq_zero_of_le hle, List.take_zero, List.count_nil]
  · next hle =>
    obtain ⟨more, hmore⟩ : ∃ more, offset - byteLength text = more + 1 :=
      ⟨offset - byteLength text - 1, by omega⟩
    rw [hmore, List.take_succ_cons, List.count_cons_self, Nat.sub_add_eq, hmore,
      Nat.add_sub_cancel]
    rfl

theorem newlinesBefore_mono (h : offset ≤ later) :
    newlinesBefore text offset ≤ newlinesBefore text later :=
  (List.take_sublist_take_left h).count_le _

theorem unlines_cons_cons (first second : List Char) (whole : List (List Char)) :
    unlines (first :: second :: whole) = first ++ '\n' :: unlines (second :: whole) := by
  rw [unlines, List.intercalate_cons_cons, List.append_assoc]
  rfl

/-- An offset that is not beyond a text is in the line that the newlines before it tell. -/
theorem linesBefore_of_le {whole : List (List Char)} (hne : whole ≠ [])
    (hlines : ∀ line ∈ whole, '\n' ∉ line) (hle : offset ≤ byteLength (unlines whole)) :
    linesBefore whole offset = newlinesBefore (unlines whole) offset := by
  induction whole generalizing offset with
  | nil => exact absurd rfl hne
  | cons first whole ih =>
    obtain ⟨hfirst, hwhole⟩ := List.forall_mem_cons.mp hlines
    cases whole with
    | nil =>
      have hsingle : unlines [first] = first := List.intercalate_singleton
      rw [hsingle] at hle ⊢
      rw [linesBefore, if_pos hle, newlinesBefore_of_notMem hfirst]
    | cons second whole =>
      rw [unlines_cons_cons] at hle ⊢
      rw [linesBefore, newlinesBefore_append_newline hfirst]
      split
      · rfl
      · have hsize : '\n'.utf8Size = 1 := rfl
        rw [Text.byteLength_append, Text.byteLength_cons, hsize] at hle
        rw [ih (List.cons_ne_nil _ _) hwhole (by omega)]

/-- All lines of a text end before an offset that is beyond the text, and before no other one. -/
theorem linesBefore_lt_iff {whole : List (List Char)} (hne : whole ≠ []) :
    linesBefore whole offset < whole.length ↔ offset ≤ byteLength (unlines whole) := by
  induction whole generalizing offset with
  | nil => exact absurd rfl hne
  | cons first whole ih =>
    rw [linesBefore, List.length_cons]
    cases whole with
    | nil =>
      have hsingle : unlines [first] = first := List.intercalate_singleton
      rw [hsingle]
      split
      · next hle => exact iff_of_true (Nat.zero_lt_succ _) hle
      · next hle => exact iff_of_false (Nat.not_lt_of_le (Nat.le_add_left 1 _)) hle
    | cons second whole =>
      have hsize : '\n'.utf8Size = 1 := rfl
      rw [unlines_cons_cons, Text.byteLength_append, Text.byteLength_cons, hsize]
      split
      · next hle => exact iff_of_true (Nat.zero_lt_succ _) (Nat.le_add_right_of_le hle)
      · rw [Nat.succ_lt_succ_iff, ih (List.cons_ne_nil _ _)]
        omega

theorem lines_ne_nil (score : List Char) : lines score ≠ [] :=
  List.splitOn_ne_nil '\n' score

theorem linesBefore_lines_lt_iff {score : List Char} :
    linesBefore (lines score) offset < (lines score).length ↔ offset ≤ byteLength score := by
  rw [linesBefore_lt_iff (lines_ne_nil score), unlines_lines]

/-- The lines before an offset of a score are as many as the newlines before it. -/
theorem linesBefore_lines {score : List Char} (h : offset ≤ byteLength score) :
    linesBefore (lines score) offset = newlinesBefore score offset := by
  have hlines : ∀ line ∈ lines score, '\n' ∉ line := fun line => Record.not_mem_of_mem_splitOn
  rw [linesBefore_of_le (lines_ne_nil score) hlines (by rwa [unlines_lines]), unlines_lines]

/-- The line of an offset, found by going over the lines in order. A line takes the newline that
ends it with it, and the lines are given up at an empty one. -/
def lineScan : List (List Char) → (offset : Nat) → Option Nat
  | [], _ => none
  | line :: whole, offset =>
    if line = [] then none
    else if offset ≤ byteLength line then some 0
    else (lineScan whole (offset - (byteLength line + 1))).map (· + 1)

/-- Going over the lines finds the first one that ends behind the offset, unless an empty line comes
before it or is that line. -/
theorem lineScan_eq_some_iff {whole : List (List Char)} :
    lineScan whole offset = some line ↔ linesBefore whole offset = line ∧ line < whole.length ∧
      ∀ empty, whole.findIdx? List.isEmpty = some empty → line < empty := by
  induction whole generalizing offset line with
  | nil => simp [lineScan]
  | cons first whole ih =>
    rw [lineScan, linesBefore]
    by_cases hnil : first = []
    · have hempty : (first :: whole).findIdx? List.isEmpty = some 0 := by
        rw [List.findIdx?_cons, if_pos (List.isEmpty_iff.mpr hnil)]
      exact iff_of_false (by simp [hnil]) fun h => Nat.not_lt_zero line (h.2.2 0 hempty)
    · have hempty : (first :: whole).findIdx? List.isEmpty =
          (whole.findIdx? List.isEmpty).map (· + 1) := by
        rw [List.findIdx?_cons, if_neg (mt List.isEmpty_iff.mp hnil)]
      rw [if_neg hnil, hempty, List.length_cons]
      split
      · constructor
        · rintro ⟨⟩
          exact ⟨rfl, Nat.zero_lt_succ _, by simp⟩
        · rintro ⟨rfl, -, -⟩
          rfl
      · cases line with
        | zero => simp
        | succ line => simp [ih]

end Kern

open Kern (lines newlinesBefore lineScan)

variable {score : List Char} {offset line : Nat}

theorem LineMap.lineOf_eq_ok_iff : (LineMap.ofScore score).lineOf offset = .ok line ↔
    Kern.linesBefore (lines score) offset = line ∧ line < (lines score).length ∧
      ∀ empty, (lines score).findIdx? List.isEmpty = some empty → line < empty := by
  rw [lineOf_eq]
  constructor
  · intro h
    split at h
    · next hlt =>
      split at h
      · next empty hempty =>
        split at h
        · cases h
        · next hle =>
          cases h
          refine ⟨rfl, hlt, fun other hother => ?_⟩
          obtain rfl := Option.some.inj (hempty.symm.trans hother)
          exact Nat.lt_of_not_le hle
      · next hempty =>
        cases h
        exact ⟨rfl, hlt, by simp [hempty]⟩
    · cases h
  · rintro ⟨rfl, hlt, hbefore⟩
    rw [if_pos hlt]
    split
    · next empty hempty => exact if_neg (Nat.not_le.mpr (hbefore empty hempty))
    · rfl

/-- Where a line is empty, the first empty line comes no later. -/
theorem findIdx?_isEmpty_of_getElem? {whole : List (List Char)} {empty : Nat}
    (h : whole[empty]? = some []) :
    ∃ first, whole.findIdx? List.isEmpty = some first ∧ first ≤ empty := by
  obtain ⟨hlt, hempty⟩ := List.getElem?_eq_some_iff.mp h
  cases hfirst : whole.findIdx? List.isEmpty with
  | none =>
    have hall := List.findIdx?_eq_none_iff.mp hfirst _ (List.getElem_mem hlt)
    rw [hempty] at hall
    cases hall
  | some first =>
    refine ⟨first, rfl, Nat.le_of_not_lt fun hbefore => ?_⟩
    obtain ⟨_, _, hnone⟩ := List.findIdx?_eq_some_iff_getElem.mp hfirst
    exact hnone empty hbefore (by rw [hempty]; rfl)

/-- The line of an offset in terms of the bytes of the score. -/
theorem LineMap.lineOf_eq_newlinesBefore (score : List Char) (offset : Nat) :
    (LineMap.ofScore score).lineOf offset =
      if byteLength score < offset then .error (.offsetOutOfRange offset (byteLength score))
      else match (lines score).findIdx? List.isEmpty with
        | some empty =>
          if empty ≤ newlinesBefore score offset then .error (.emptyLine empty)
          else .ok (newlinesBefore score offset)
        | none => .ok (newlinesBefore score offset) := by
  rw [lineOf_eq]
  by_cases hle : offset ≤ byteLength score
  · rw [if_pos (Kern.linesBefore_lines_lt_iff.mpr hle), if_neg (Nat.not_lt.mpr hle),
      Kern.linesBefore_lines hle]
  · rw [if_neg (mt Kern.linesBefore_lines_lt_iff.mp hle), if_pos (Nat.lt_of_not_le hle)]

theorem LineMap.eq_newlinesBefore_of_lineOf
    (h : (LineMap.ofScore score).lineOf offset = .ok line) : line = newlinesBefore score offset := by
  obtain ⟨rfl, hlt, -⟩ := lineOf_eq_ok_iff.mp h
  exact Kern.linesBefore_lines (Kern.linesBefore_lines_lt_iff.mp hlt)

/-- The line of an offset is the number of newlines before it. No line is found beyond the end of
the score, nor from the first empty line on. A line that is found is the one that going over the
lines in order finds, and a later offset has no earlier line. -/
theorem lineOf_ofScore_eq (score : List Char) (offset : Nat) :
    ((LineMap.ofScore score).lineOf offset =
      if byteLength score < offset then .error (.offsetOutOfRange offset (byteLength score))
      else match (lines score).findIdx? List.isEmpty with
        | some empty =>
          if empty ≤ newlinesBefore score offset then .error (.emptyLine empty)
          else .ok (newlinesBefore score offset)
        | none => .ok (newlinesBefore score offset)) ∧
    (∀ line, (LineMap.ofScore score).lineOf offset = .ok line ↔
      lineScan (lines score) offset = some line) ∧
    ∀ later line laterLine, offset ≤ later → (LineMap.ofScore score).lineOf offset = .ok line →
      (LineMap.ofScore score).lineOf later = .ok laterLine → line ≤ laterLine := by
  refine ⟨LineMap.lineOf_eq_newlinesBefore score offset, fun line => ?_, ?_⟩
  · rw [LineMap.lineOf_eq_ok_iff, Kern.lineScan_eq_some_iff]
  · intro later line laterLine hle hline hlater
    rw [LineMap.eq_newlinesBefore_of_lineOf hline, LineMap.eq_newlinesBefore_of_lineOf hlater]
    exact Kern.newlinesBefore_mono hle

-- The letter takes two bytes, and the third byte is the newline.
example : [1, 2, 3, 5, 6].map
    (fun offset => ((LineMap.ofScore "é\n4c".toList).lineOf offset).toOption) =
      [some 0, some 0, some 1, some 1, none] := by
  decide +kernel

end MotifSearch
