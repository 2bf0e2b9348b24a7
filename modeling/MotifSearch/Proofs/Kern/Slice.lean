import Mathlib.Data.List.TakeWhile
import MotifSearch.Proofs.Kern.SingleSpine

/-!
# The slice of a score that holds its spines

The spines of a score are what stands from the line of the first kern spine to the last terminator,
or to the end of the score if no spine is terminated. Here this is said about the text of the score
as a whole, with the occurrences of the two marks in it. The lines between the marks are found line
by line, and they are the lines of the slice.

## Main definitions

* `Kern.IsFirst`, `Kern.IsLast` — the first and the last occurrence of a mark in a text
* `Kern.IsSlice` — the part of a score that holds its spines

## Main results

* `uptoLast?_of_isLast` — a line up to the last occurrence of a mark
* `cutAfterLast_of_isLast` — lines up to the last occurrence of a mark
* `exists_isSlice` — a score with a kern spine has a slice
* `IsSlice.spineLines_eq` — the lines between the marks are the lines of the slice
-/

namespace MotifSearch.Kern

open Record (terminatedText exists_terminatedText)

section Occurrences

variable {mark text lead rest : List Char} {c : Char}

/-- The first occurrence of a mark in a text comes after `lead`. -/
structure IsFirst (mark text lead : List Char) : Prop where
  occurs : lead ++ mark <+: text
  first : ∀ other, other ++ mark <+: text → lead.length ≤ other.length

/-- The last occurrence of a mark in a text comes after `lead`. -/
structure IsLast (mark text lead : List Char) : Prop where
  occurs : lead ++ mark <+: text
  last : ∀ other, other ++ mark <+: text → other.length ≤ lead.length

theorem infix_of_occurs (h : lead ++ mark <+: text) : mark <:+: text :=
  (List.suffix_append lead mark).isInfix.trans h.isInfix

theorem exists_append_prefix_of_infix (h : mark <:+: text) : ∃ lead, lead ++ mark <+: text := by
  obtain ⟨lead, rest, rfl⟩ := h
  exact ⟨lead, List.prefix_append ..⟩

/-- An occurrence in a text is at its beginning, or it is one in the rest of the text. -/
private theorem append_prefix_cons (h : lead ++ mark <+: c :: text) :
    lead = [] ∨ ∃ behind, lead = c :: behind ∧ behind ++ mark <+: text := by
  cases lead with
  | nil => exact Or.inl rfl
  | cons d lead =>
    rw [List.cons_append, List.cons_prefix_cons] at h
    obtain ⟨rfl, h⟩ := h
    exact Or.inr ⟨lead, rfl, h⟩

theorem exists_isFirst (h : mark <:+: text) : ∃ lead, IsFirst mark text lead := by
  induction text with
  | nil =>
    obtain rfl := List.infix_nil.mp h
    exact ⟨[], List.prefix_rfl, fun _ _ => Nat.zero_le _⟩
  | cons c text ih =>
    by_cases hmark : mark <+: c :: text
    · exact ⟨[], hmark, fun _ _ => Nat.zero_le _⟩
    · obtain ⟨lead, hoccurs, hfirst⟩ := ih ((List.infix_cons_iff.mp h).resolve_left hmark)
      refine ⟨c :: lead, List.cons_prefix_cons.mpr ⟨rfl, hoccurs⟩, fun other hother => ?_⟩
      rcases append_prefix_cons hother with rfl | ⟨behind, rfl, hbehind⟩
      · exact absurd hother hmark
      · exact Nat.succ_le_succ (hfirst behind hbehind)

theorem exists_isLast (h : mark <:+: text) : ∃ lead, IsLast mark text lead := by
  induction text with
  | nil =>
    obtain rfl := List.infix_nil.mp h
    exact ⟨[], List.prefix_rfl, fun other hother => by simpa using hother.length_le⟩
  | cons c text ih =>
    by_cases hrest : mark <:+: text
    · obtain ⟨lead, hoccurs, hlast⟩ := ih hrest
      refine ⟨c :: lead, List.cons_prefix_cons.mpr ⟨rfl, hoccurs⟩, fun other hother => ?_⟩
      rcases append_prefix_cons hother with rfl | ⟨behind, rfl, hbehind⟩
      · exact Nat.zero_le _
      · exact Nat.succ_le_succ (hlast behind hbehind)
    · refine ⟨[], (List.infix_cons_iff.mp h).resolve_right hrest, fun other hother => ?_⟩
      rcases append_prefix_cons hother with rfl | ⟨behind, rfl, hbehind⟩
      · exact Nat.le_refl _
      · exact absurd (infix_of_occurs hbehind) hrest

/-- An occurrence after `lead` is one in the whole text. -/
theorem append_prefix_append (h : rest ++ mark <+: text) :
    lead ++ rest ++ mark <+: lead ++ text := by
  rw [List.append_assoc]
  exact (List.prefix_append_right_inj lead).mpr h

/-- Nothing that follows the last occurrence has the mark. -/
theorem IsLast.not_infix (h : IsLast mark (lead ++ (mark ++ rest)) lead) (hne : mark ≠ []) :
    ¬ mark <:+: rest := by
  intro hinfix
  obtain ⟨other, hother⟩ := exists_append_prefix_of_infix hinfix
  have hle := h.last (lead ++ mark ++ other) (by
    rw [← List.append_assoc]
    exact append_prefix_append hother)
  have hpos := List.length_pos_iff.mpr hne
  simp only [List.length_append] at hle
  omega

/-- The last occurrence in a text is the last one in each part of the text that has it. -/
theorem IsLast.of_append {before behind : List Char}
    (h : IsLast mark (before ++ (text ++ behind)) (before ++ lead))
    (hoccurs : lead ++ mark <+: text) : IsLast mark text lead := by
  refine ⟨hoccurs, fun other hother => ?_⟩
  have hle := h.last (before ++ other)
    (append_prefix_append (hother.trans (List.prefix_append text behind)))
  simpa using hle

/-- The last occurrence in a text is the last one in each text that ends with it. -/
theorem IsLast.append (h : IsLast mark text lead) (before : List Char) :
    IsLast mark (before ++ text) (before ++ lead) := by
  refine ⟨append_prefix_append h.occurs, fun other hother => ?_⟩
  rw [List.length_append]
  by_cases hlength : other.length ≤ before.length
  · omega
  · have hbefore : before <+: other :=
      List.prefix_of_prefix_length_le (List.prefix_append before text)
        ((List.prefix_append other mark).trans hother) (by omega)
    obtain ⟨behind, rfl⟩ := hbefore
    rw [List.append_assoc, List.prefix_append_right_inj] at hother
    rw [List.length_append]
    exact Nat.add_le_add_left (h.last behind hother) _

/-- What is found begins with the first occurrence. -/
theorem fromFirst?_of_isFirst (h : IsFirst mark (lead ++ (mark ++ rest)) lead) :
    fromFirst? mark (lead ++ (mark ++ rest)) = some (mark ++ rest) := by
  induction lead with
  | nil =>
    cases hfound : mark ++ rest with
    | nil =>
      obtain ⟨rfl, -⟩ := List.append_eq_nil_iff.mp hfound
      rw [List.nil_append, fromFirst?, if_pos rfl]
    | cons c text =>
      have hmark : mark <+: c :: text := hfound ▸ List.prefix_append ..
      rw [List.nil_append, fromFirst?, if_pos (List.isPrefixOf_iff_prefix.mpr hmark)]
  | cons c lead ih =>
    have hmark : ¬ mark <+: c :: (lead ++ (mark ++ rest)) := fun hmark =>
      absurd (h.first [] hmark) (by simp)
    rw [List.cons_append, fromFirst?, if_neg (by rwa [List.isPrefixOf_iff_prefix])]
    refine ih ⟨by simp, fun other hother => ?_⟩
    exact Nat.le_of_succ_le_succ (h.first (c :: other) (List.cons_prefix_cons.mpr ⟨rfl, hother⟩))

/-- A line up to the last occurrence of a mark. -/
theorem uptoLast?_of_isLast (h : IsLast mark text lead) :
    uptoLast? mark text = some (lead ++ mark) := by
  obtain ⟨rest, rfl⟩ := h.occurs
  rw [List.append_assoc] at h ⊢
  have hreverse : (lead ++ (mark ++ rest)).reverse =
      rest.reverse ++ (mark.reverse ++ lead.reverse) := by simp
  -- Read from the right, the last occurrence is the first one.
  have hfirst : IsFirst mark.reverse (rest.reverse ++ (mark.reverse ++ lead.reverse))
      rest.reverse := by
    refine ⟨by simp, fun other hother => ?_⟩
    obtain ⟨behind, hbehind⟩ := hother
    rw [← hreverse, ← List.reverse_inj, List.reverse_reverse] at hbehind
    simp only [List.reverse_append, List.reverse_reverse] at hbehind
    have hle := h.last behind.reverse ⟨other.reverse, by rw [← hbehind, List.append_assoc]⟩
    have hlength := congrArg List.length hbehind
    simp only [List.length_append, List.length_reverse] at hlength hle ⊢
    omega
  rw [uptoLast?, hreverse, fromFirst?_of_isFirst hfirst, Option.map_some, List.reverse_append,
    List.reverse_reverse, List.reverse_reverse]

end Occurrences

section Lines

variable {mark line : List Char}

/-- Without a mark all lines are kept. -/
theorem cutAfterLast_of_forall_not {lines : List (List Char)}
    (h : ∀ line ∈ lines, ¬ mark <:+: line) : cutAfterLast mark lines = lines := by
  have hdrop : lines.reverse.dropWhile (fun line => (uptoLast? mark line).isNone) = [] := by
    rw [List.dropWhile_eq_nil_iff]
    intro line hline
    simpa [uptoLast?_eq_none_iff] using h line (List.mem_reverse.mp hline)
  rw [cutAfterLast, hdrop]

theorem infix_of_mem_lines {text : List Char} (h : line ∈ lines text) : line <:+: text := by
  obtain ⟨first, others, hlines⟩ := List.exists_cons_of_ne_nil (List.splitOn_ne_nil '\n' text)
  have htext : text = first ++ (others.map ('\n' :: ·)).flatten := by
    rw [← List.flatMap_def, ← Record.intercalate_cons, ← hlines, List.intercalate_splitOn]
  rw [lines, hlines] at h
  rw [htext]
  rcases List.mem_cons.mp h with rfl | h
  · exact (List.prefix_append ..).isInfix
  · have hother := List.infix_of_mem_flatten (List.mem_map_of_mem (f := ('\n' :: ·)) h)
    exact ((List.suffix_cons '\n' line).isInfix.trans hother).trans (List.suffix_append ..).isInfix

/-- A text at whose end a line starts is a text of lines, and what follows it begins with a line. -/
theorem exists_of_lineStartAfter {before : List Char} (h : lineStartAfter true before = true) :
    ∃ done, before = terminatedText done ∧ (∀ line ∈ done, line <:+: before) ∧
      ∀ rest, lines (before ++ rest) = done ++ lines rest := by
  obtain ⟨tail, hbefore, htail, hdone⟩ := exists_terminatedText before
  have hmem : ∀ line ∈ (lines before).dropLast, line <:+: before :=
    fun line hline => infix_of_mem_lines (List.dropLast_subset _ hline)
  generalize (lines before).dropLast = done at hbefore hdone hmem
  rw [hbefore, lineStartAfter_append, Record.lineStartAfter_terminatedText] at h
  obtain ⟨-, rfl⟩ := eq_nil_of_lineStartAfter h htail
  rw [List.append_nil] at hbefore
  exact ⟨done, hbefore, hmem, fun rest => by rw [hbefore, lines_terminatedText hdone]⟩

/-- What comes before the first newline belongs to the first line. -/
theorem lines_append (h : '\n' ∉ line) (rest : List Char) :
    lines (line ++ rest) = (lines rest).modifyHead (line ++ ·) := by
  induction line with
  | nil => exact (congrFun List.modifyHead_id (lines rest)).symm
  | cons c line ih =>
    rw [List.mem_cons, not_or] at h
    have hc : ¬ (c == '\n') = true := fun heq => h.1 (beq_iff_eq.mp heq).symm
    have hrest := ih h.2
    rw [lines] at hrest ⊢
    rw [List.cons_append, List.splitOn_cons_eq_if_modifyHead, if_neg hc, hrest,
      List.modifyHead_modifyHead]
    rfl

/-- Lines up to the last occurrence of a mark are the lines of the text up to there. -/
theorem cutAfterLast_of_isLast {lead behind : List Char} (hmark : '\n' ∉ mark) (hne : mark ≠ [])
    (h : IsLast mark (lead ++ (mark ++ behind)) lead) :
    cutAfterLast mark (lines (lead ++ (mark ++ behind))) = lines (lead ++ mark) := by
  obtain ⟨tail, hlead, htail, hfront⟩ := exists_terminatedText lead
  generalize (lines lead).dropLast = front at hlead hfront
  obtain ⟨first, others, hbehind⟩ := List.exists_cons_of_ne_nil (List.splitOn_ne_nil '\n' behind)
  have hbehind : lines behind = first :: others := hbehind
  have hline : '\n' ∉ tail ++ mark := by simp [htail, hmark]
  have hwhole : lines (lead ++ (mark ++ behind)) =
      front ++ (tail ++ (mark ++ first)) :: others := by
    rw [hlead, List.append_assoc, ← List.append_assoc tail, lines_terminatedText hfront,
      lines_append hline, hbehind, List.modifyHead_cons, List.append_assoc]
  have hpart : lines (lead ++ mark) = front ++ [tail ++ mark] := by
    rw [hlead, List.append_assoc, lines_terminatedText hfront, ← List.append_nil (tail ++ mark),
      lines_append hline]
    simp [lines]
  -- The line of the mark ends with the first newline after it.
  obtain ⟨more, hmore⟩ : ∃ more, behind = first ++ more := by
    refine ⟨others.flatMap ('\n' :: ·), ?_⟩
    rw [← Record.intercalate_cons, ← hbehind, lines, List.intercalate_splitOn]
  have hsame : lead ++ (mark ++ behind) =
      terminatedText front ++ (tail ++ (mark ++ first) ++ more) := by
    rw [hlead, hmore]
    simp
  have hlast : IsLast mark (tail ++ (mark ++ first)) tail := by
    rw [hsame, hlead] at h
    exact h.of_append (by simp)
  rw [hwhole, hpart]
  refine cutAfterLast_of_uptoLast? front (uptoLast?_of_isLast hlast) fun other hother hwithin => ?_
  have hmem : other ∈ lines behind := hbehind ▸ List.mem_cons_of_mem first hother
  exact h.not_infix hne (hwithin.trans (infix_of_mem_lines hmem))

end Lines

/-- A part of a score that holds its spines: it starts with the line of the first kern spine, and it
stops just behind the last terminator, or with the score if no terminator follows that start. -/
structure IsSlice (before slice after : List Char) : Prop where
  start : lineStartAfter true before = true
  announced : ∃ lead, '\n' ∉ lead ∧
    IsFirst kernSpine (before ++ (slice ++ after)) (before ++ lead)
  stop : (∃ lead, slice = lead ++ terminator ∧
      IsLast terminator (before ++ (slice ++ after)) (before ++ lead)) ∨
    after = [] ∧ ¬ terminator <:+: slice

/-- A score with a kern spine has a slice. -/
theorem exists_isSlice {score : List Char} (h : kernSpine <:+: score) :
    ∃ before slice after, score = before ++ (slice ++ after) ∧ IsSlice before slice after := by
  obtain ⟨place, hplace⟩ := exists_isFirst h
  obtain ⟨lead, hsplit, hlead, -⟩ := exists_terminatedText place
  generalize hbefore : terminatedText (lines place).dropLast = before at hsplit
  have hstart : lineStartAfter true before = true := by
    rw [← hbefore, Record.lineStartAfter_terminatedText]
  obtain ⟨rest, hrest⟩ := (List.prefix_append place kernSpine).trans hplace.occurs
  rw [hsplit, List.append_assoc] at hrest
  rw [hsplit] at hplace
  rw [← hrest] at hplace ⊢
  by_cases hterminator : terminator <:+: lead ++ rest
  · obtain ⟨stop, hoccurs, hlast⟩ := exists_isLast hterminator
    have hstop := hoccurs
    obtain ⟨after, hafter⟩ := hoccurs
    refine ⟨before, stop ++ terminator, after, by rw [hafter], hstart, ?_, Or.inl ⟨stop, rfl, ?_⟩⟩
    · rw [hafter]
      exact ⟨lead, hlead, hplace⟩
    · rw [hafter]
      exact IsLast.append ⟨hstop, hlast⟩ before
  · refine ⟨before, lead ++ rest, [], by simp, hstart, ?_, Or.inr ⟨rfl, hterminator⟩⟩
    rw [List.append_nil]
    exact ⟨lead, hlead, hplace⟩

/-- The lines between the marks are the lines of the slice. -/
theorem IsSlice.spineLines_eq {before slice after : List Char} (h : IsSlice before slice after) :
    spineLines (before ++ (slice ++ after)) = lines slice := by
  obtain ⟨done, hbefore, hdone, hlines⟩ := exists_of_lineStartAfter h.start
  obtain ⟨lead, hlead, hfirst⟩ := h.announced
  -- Before the slice there is no kern spine, and its first line has one.
  have hdrop : (lines (before ++ (slice ++ after))).dropWhile
      (fun line => (fromFirst? kernSpine line).isNone) = lines (slice ++ after) := by
    rw [hlines, List.dropWhile_append_of_pos]
    · obtain ⟨rest, hrest⟩ := hfirst.occurs
      rw [List.append_assoc, List.append_assoc] at hrest
      obtain ⟨first, others, hothers⟩ := List.exists_cons_of_ne_nil (List.splitOn_ne_nil '\n' rest)
      have hnewline : '\n' ∉ kernSpine := by decide +kernel
      have hline : '\n' ∉ lead ++ kernSpine := by simp [hlead, hnewline]
      have hheader : lines (slice ++ after) = (lead ++ kernSpine ++ first) :: others := by
        rw [← List.append_cancel_left hrest, ← List.append_assoc, lines_append hline, lines,
          hothers, List.modifyHead_cons]
      have hmark : fromFirst? kernSpine (lead ++ kernSpine ++ first) ≠ none := fun hnone =>
        fromFirst?_eq_none_iff.mp hnone (infix_of_occurs (List.prefix_append ..))
      rw [hheader, List.dropWhile_cons_of_neg (by simpa using hmark)]
    · intro line hline
      have hnone : ¬ kernSpine <:+: line := fun hwithin => by
        obtain ⟨other, hother⟩ := exists_append_prefix_of_infix (hwithin.trans (hdone line hline))
        have hle := hfirst.first other (hother.trans (List.prefix_append ..))
        have hlength := hother.length_le
        have hpos : 0 < kernSpine.length := by decide
        simp only [List.length_append] at hle hlength
        omega
      simpa [fromFirst?_eq_none_iff] using hnone
  rw [spineLines, hdrop]
  rcases h.stop with ⟨stop, rfl, hlast⟩ | ⟨rfl, hnone⟩
  · rw [List.append_assoc] at hlast ⊢
    rw [← List.append_nil (stop ++ (terminator ++ after))] at hlast
    exact cutAfterLast_of_isLast (by decide) (by decide) (hlast.of_append (by simp))
  · rw [List.append_nil]
    exact cutAfterLast_of_forall_not fun line hline hwithin =>
      hnone (hwithin.trans (infix_of_mem_lines hline))

end MotifSearch.Kern
