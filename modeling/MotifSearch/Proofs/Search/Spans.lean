import MotifSearch.Proofs.Pattern.Reading
import MotifSearch.Proofs.Record.Preferred
import MotifSearch.Proofs.Regex.Factoring
import MotifSearch.Search.Basic

/-!
# The spans that a search reports

The search collects its spans one after the other. Here they are given as a list, position by
position, and it is shown how the list goes on after a match and where there is none.

## Main definitions

* `Regex.spansFrom` — the spans from a position on
* `Meaning.Matches` — the range of a text that a span stands for is matched

## Main results

* `findAll_eq_spansFrom` — the spans of a search as a list
* `spansFrom_of_match`, `spansFrom_of_no_match` — one step of the search
* `spansFrom_ne_nil` — where something is found
* `spansFrom_token` — nothing is found within a token
* `pairwise_spansFrom` — spans do not overlap
* `exists_preferred_of_mem_spansFrom` — what is reported is a preferred match
* `matches_of_mem_findAll` — every range that a search reports is matched
* `locate_compile`, `exists_of_locate` — the spans that a search for a pattern reports
-/

namespace MotifSearch

open Text (byteLength)

/-- The range of a text that a span stands for is matched where it stands. -/
def Meaning.Matches (meaning : Meaning) (text : List Char) (span : Span) : Prop :=
  ∃ before word after, text = before ++ (word ++ after) ∧
    span = ⟨byteLength before, byteLength (before ++ word)⟩ ∧
    meaning (lineStartAfter true before) word after

namespace Regex

variable {regex : Regex} {skip offset : Nat} {atLineStart : Bool} {c : Char}
variable {text word : List Char} {span : Span}

/-- The spans of the non-empty matches in `text`, which begins at byte `offset` of the score. The
first `skip` characters belong to a match that has been reported already. -/
def spansFrom (regex : Regex) :
    (skip : Nat) → (atLineStart : Bool) → (offset : Nat) → List Char → List Span
  | _, _, _, [] => []
  | skip + 1, _, offset, c :: text =>
    spansFrom regex skip (c == '\n') (offset + c.utf8Size) text
  | 0, atLineStart, offset, c :: text =>
    match regex.preferredLength atLineStart (c :: text) with
    | some (more + 1) =>
      ⟨offset, offset + byteLength ((c :: text).take (more + 1))⟩ ::
        spansFrom regex more (c == '\n') (offset + c.utf8Size) text
    | _ => spansFrom regex 0 (c == '\n') (offset + c.utf8Size) text

theorem toList_search (found : Array Span) :
    (regex.search skip atLineStart offset text found).toList =
      found.toList ++ regex.spansFrom skip atLineStart offset text := by
  induction text generalizing skip atLineStart offset found with
  | nil => cases skip <;> simp [search, spansFrom]
  | cons c text ih =>
    cases skip with
    | succ skip => exact ih found
    | zero =>
      rcases hlength : regex.preferredLength atLineStart (c :: text) with _ | _ | more
      · simpa only [search, spansFrom, hlength] using ih found
      · simpa only [search, spansFrom, hlength] using ih found
      · simp [search, spansFrom, hlength, ih]

/-- The spans of a search as a list. -/
theorem findAll_eq_spansFrom (regex : Regex) (text : List Char) :
    regex.findAll text = regex.factored.spansFrom 0 true 0 text := by
  rw [findAll, toList_search]
  rfl

/-- Expressions that prefer matches of the same length have the same spans. -/
theorem spansFrom_congr {other : Regex}
    (h : ∀ atLineStart text,
      regex.preferredLength atLineStart text = other.preferredLength atLineStart text) :
    regex.spansFrom skip atLineStart offset text =
      other.spansFrom skip atLineStart offset text := by
  induction text generalizing skip atLineStart offset with
  | nil => cases skip <;> rfl
  | cons c text ih =>
    cases skip with
    | succ skip => exact ih
    | zero => simp only [spansFrom, h, ih]

/-- The characters of a match that has been reported are passed over. -/
theorem spansFrom_append :
    regex.spansFrom (word.length + skip) atLineStart offset (word ++ text) =
      regex.spansFrom skip (lineStartAfter atLineStart word) (offset + byteLength word) text := by
  induction word generalizing atLineStart offset with
  | nil => simp
  | cons c word ih =>
    have hlength : (c :: word).length + skip = word.length + skip + 1 := by
      rw [List.length_cons]
      omega
    rw [hlength, List.cons_append, spansFrom, ih, lineStartAfter_cons, Text.byteLength_cons,
      Nat.add_assoc]

/-- A match that is not empty is reported, and what it reads is passed over. -/
theorem spansFrom_of_some {rest : List Char} {more : Nat}
    (h : regex.preferredLength atLineStart text = some (more + 1)) (htext : text = c :: rest) :
    regex.spansFrom 0 atLineStart offset text =
      ⟨offset, offset + byteLength (text.take (more + 1))⟩ ::
        regex.spansFrom more (c == '\n') (offset + c.utf8Size) rest := by
  subst htext
  simp only [spansFrom, h]

/-- The search goes on one character further where there is no match, or an empty one only. -/
theorem spansFrom_of_no_match {rest : List Char}
    (h : (regex.preferredLength atLineStart text).getD 0 = 0) (htext : text = c :: rest) :
    regex.spansFrom 0 atLineStart offset text =
      regex.spansFrom 0 (c == '\n') (offset + c.utf8Size) rest := by
  subst htext
  rw [spansFrom]
  split
  · next more hmore =>
    rw [hmore] at h
    cases h
  · rfl

/-- The search goes on right after a match. -/
theorem spansFrom_of_match
    (h : regex.preferredLength atLineStart (word ++ text) = some word.length) (hne : word ≠ []) :
    regex.spansFrom 0 atLineStart offset (word ++ text) =
      ⟨offset, offset + byteLength word⟩ :: regex.spansFrom 0 (lineStartAfter atLineStart word)
        (offset + byteLength word) text := by
  cases word with
  | nil => exact absurd rfl hne
  | cons c word =>
    have htake : (c :: word ++ text).take (word.length + 1) = c :: word := by simp
    rw [← spansFrom_append, spansFrom_of_some h rfl, htake]
    rfl

/-- Something is reported where the preferred match of some position is not empty. -/
theorem spansFrom_ne_nil {before : List Char} {more : Nat}
    (h : regex.preferredLength (lineStartAfter atLineStart before) text = some (more + 1)) :
    regex.spansFrom 0 atLineStart offset (before ++ text) ≠ [] := by
  induction before generalizing atLineStart offset with
  | nil =>
    cases text with
    | nil => exact absurd (meaning_of_preferredLength h).1 (Nat.not_succ_le_zero more)
    | cons c text =>
      rw [lineStartAfter_nil] at h
      rw [List.nil_append, spansFrom_of_some h rfl]
      exact List.cons_ne_nil _ _
  | cons c before ih =>
    rw [List.cons_append, spansFrom]
    split
    · exact List.cons_ne_nil _ _
    · exact ih h

/-- A text that begins further to the right has its matches further to the right. -/
theorem spansFrom_add (distance : Nat) :
    regex.spansFrom skip atLineStart (offset + distance) text =
      (regex.spansFrom skip atLineStart offset text).map
        fun span => ⟨span.start + distance, span.stop + distance⟩ := by
  induction text generalizing skip atLineStart offset with
  | nil => cases skip <;> rfl
  | cons c text ih =>
    have hnext : offset + distance + c.utf8Size = offset + c.utf8Size + distance :=
      Nat.add_right_comm ..
    cases skip with
    | succ skip => rw [spansFrom, spansFrom, hnext, ih]
    | zero =>
      rw [spansFrom, spansFrom, hnext]
      split
      · rw [List.map_cons, ih, Nat.add_right_comm offset distance]
      · exact ih

theorem length_spansFrom (regex : Regex) (skip : Nat) (atLineStart : Bool) (offset : Nat)
    (text : List Char) :
    (regex.spansFrom skip atLineStart offset text).length =
      (regex.spansFrom skip atLineStart 0 text).length := by
  rw [← Nat.zero_add offset, spansFrom_add, List.length_map]

/-- Spans are not empty and begin after what has been passed over. -/
theorem bounds_of_mem_spansFrom (h : span ∈ regex.spansFrom skip atLineStart offset text) :
    offset + byteLength (text.take skip) ≤ span.start ∧ span.start < span.stop := by
  induction text generalizing skip atLineStart offset with
  | nil => cases skip <;> simp [spansFrom] at h
  | cons c text ih =>
    cases skip with
    | succ skip =>
      have hbounds := ih h
      rw [List.take_succ_cons, Text.byteLength_cons]
      omega
    | zero =>
      -- What comes after the first character begins after it, in a match or not.
      have hpos := c.utf8Size_pos
      have hrest : ∀ skip, span ∈ regex.spansFrom skip (c == '\n') (offset + c.utf8Size) text →
          offset ≤ span.start ∧ span.start < span.stop := by
        intro skip hmem
        have hbounds := ih hmem
        omega
      simp only [List.take_zero, Text.byteLength_nil, Nat.add_zero]
      rw [spansFrom] at h
      split at h
      · rcases List.mem_cons.mp h with rfl | h
        · simp only [List.take_succ_cons, Text.byteLength_cons]
          omega
        · exact hrest _ h
      · exact hrest _ h

/-- Spans are reported from left to right, and they do not overlap. -/
theorem pairwise_spansFrom (regex : Regex) (skip : Nat) (atLineStart : Bool) (offset : Nat)
    (text : List Char) :
    (regex.spansFrom skip atLineStart offset text).Pairwise fun first second =>
      first.stop ≤ second.start := by
  induction text generalizing skip atLineStart offset with
  | nil => cases skip <;> exact .nil
  | cons c text ih =>
    cases skip with
    | succ skip => exact ih skip _ _
    | zero =>
      rw [spansFrom]
      split
      · refine .cons ?_ (ih _ _ _)
        intro span hspan
        have hbounds := bounds_of_mem_spansFrom hspan
        simp only [List.take_succ_cons, Text.byteLength_cons]
        omega
      · exact ih 0 _ _

/-- Nothing that leads from record to record is found within a token. -/
theorem spansFrom_token (h : Leads Record.matchedControl regex .between .between)
    (hnewline : '\n' ∉ word) (htab : '\t' ∉ word) :
    regex.spansFrom 0 false offset (word ++ text) =
      regex.spansFrom 0 false (offset + byteLength word) text := by
  -- A match begins with a line or with a tab, and neither is found here.
  induction word generalizing offset with
  | nil => rfl
  | cons c word ih =>
    rw [List.mem_cons, not_or] at hnewline htab
    have hstep : Mode.between.step false c = none := Mode.step_between_false (Ne.symm htab.1)
    have hnone := getD_preferredLength h hstep (word ++ text)
    have hc : (c == '\n') = false := beq_eq_false_iff_ne.mpr (Ne.symm hnewline.1)
    rw [List.cons_append, spansFrom_of_no_match hnone rfl, hc, ih hnewline.2 htab.2,
      Text.byteLength_cons, Nat.add_assoc]

/-- What is reported is the preferred match where it stands. -/
theorem exists_preferred_of_mem_spansFrom
    (h : span ∈ regex.spansFrom skip atLineStart offset text) :
    ∃ before word after, text = before ++ (word ++ after) ∧
      span = ⟨offset + byteLength before, offset + byteLength (before ++ word)⟩ ∧ word ≠ [] ∧
      regex.preferredLength (lineStartAfter atLineStart before) (word ++ after) =
        some word.length := by
  induction text generalizing skip atLineStart offset with
  | nil => cases skip <;> simp [spansFrom] at h
  | cons c text ih =>
    have hrest : ∀ skip, span ∈ regex.spansFrom skip (c == '\n') (offset + c.utf8Size) text →
        ∃ before word after, c :: text = before ++ (word ++ after) ∧
          span = ⟨offset + byteLength before, offset + byteLength (before ++ word)⟩ ∧ word ≠ [] ∧
          regex.preferredLength (lineStartAfter atLineStart before) (word ++ after) =
            some word.length := by
      intro skip hmem
      obtain ⟨before, word, after, rfl, rfl, hword⟩ := ih hmem
      refine ⟨c :: before, word, after, rfl, ?_, hword⟩
      simp only [List.cons_append, Text.byteLength_cons, Nat.add_assoc]
    cases skip with
    | succ skip => exact hrest skip h
    | zero =>
      rw [spansFrom] at h
      split at h
      · next more hmore =>
        rcases List.mem_cons.mp h with rfl | h
        · obtain ⟨hle, -⟩ := meaning_of_preferredLength hmore
          refine ⟨[], (c :: text).take (more + 1), (c :: text).drop (more + 1),
            (List.take_append_drop ..).symm, rfl, by simp, ?_⟩
          rw [List.take_append_drop, List.length_take_of_le hle]
          exact hmore
        · exact hrest _ h
      · exact hrest _ h

/-- What is reported ends within the text. -/
theorem stop_le_of_mem_spansFrom (h : span ∈ regex.spansFrom skip atLineStart offset text) :
    span.stop ≤ offset + byteLength text := by
  obtain ⟨before, word, after, rfl, rfl, -⟩ := exists_preferred_of_mem_spansFrom h
  simp only [Text.byteLength_append]
  omega

/-- What is reported is matched where it stands. -/
theorem matches_of_mem_spansFrom (h : span ∈ regex.spansFrom skip atLineStart offset text) :
    ∃ before word after, text = before ++ (word ++ after) ∧
      span = ⟨offset + byteLength before, offset + byteLength (before ++ word)⟩ ∧
      regex.meaning (lineStartAfter atLineStart before) word after := by
  obtain ⟨before, word, after, htext, hspan, -, hword⟩ := exists_preferred_of_mem_spansFrom h
  obtain ⟨-, hmeaning⟩ := meaning_of_preferredLength hword
  rw [List.take_left, List.drop_left] at hmeaning
  exact ⟨before, word, after, htext, hspan, hmeaning⟩

/-- Every range that a search reports is matched. -/
theorem matches_of_mem_findAll (h : span ∈ regex.findAll text) :
    regex.meaning.Matches text span := by
  rw [findAll_eq_spansFrom] at h
  obtain ⟨before, word, after, rfl, rfl, hmeaning⟩ := matches_of_mem_spansFrom h
  rw [meaning_factored] at hmeaning
  exact ⟨before, word, after, rfl, by simp only [Nat.zero_add], hmeaning⟩

end Regex

/-- A search for a pattern reports the spans of its tree, unless the tree is nested too deep. -/
theorem locate_compile (pattern : Pattern) (score : List Char) :
    locate score pattern.compile.expression =
      if pattern.syntaxTree.depth ≤ Regex.depthLimit then
        .ok (pattern.syntaxTree.factored.spansFrom 0 true 0 score)
      else .error (.expression (.tooDeep Regex.depthLimit)) := by
  rw [locate, readExpression, pattern.parse_expression]
  split
  · exact congrArg Except.ok (Regex.findAll_eq_spansFrom _ score)
  · rfl

/-- If a search for a pattern succeeds in one score, it does so in every score. -/
theorem exists_of_locate {pattern : Pattern} {score : List Char} {spans : List Span}
    (h : locate score pattern.compile.expression = .ok spans) :
    pattern.syntaxTree.factored.spansFrom 0 true 0 score = spans ∧
      ∀ other, locate other pattern.compile.expression =
        .ok (pattern.syntaxTree.factored.spansFrom 0 true 0 other) := by
  rw [locate_compile] at h
  split at h
  · next hdepth => exact ⟨Except.ok.inj h, fun other => by rw [locate_compile, if_pos hdepth]⟩
  · cases h

end MotifSearch
