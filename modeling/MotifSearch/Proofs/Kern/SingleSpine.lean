import MotifSearch.Proofs.Kern.SpineLines

/-!
# Scores of a single spine

A score without tabs has one column. If it is announced by its first line that is not a comment, and
terminated before the comments at the end, then its only voice is the text from the one line to the
other, unchanged.

## Main definitions

* `Kern.SingleSpine` — comments, the lines of a spine, and comments again

## Main results

* `fromFirst?_eq_none_iff`, `uptoLast?_eq_none_iff` — where a mark occurs nowhere
* `cutAfterLast_of_uptoLast?` — lines up to the last one that has a mark
* `SingleSpine.voices_text` — the only voice of such a score
-/

namespace MotifSearch.Kern

open Record (terminatedText terminatedText_append)

section Marks

variable {mark text line cut : List Char} {after : List (List Char)}

/-- Nothing is found where a mark does not occur. -/
theorem fromFirst?_eq_none_iff : fromFirst? mark text = none ↔ ¬ mark <:+: text := by
  induction text with
  | nil => simp [fromFirst?]
  | cons c text ih =>
    rw [fromFirst?, List.infix_cons_iff, not_or, ← ih, ← List.isPrefixOf_iff_prefix]
    split <;> simp [*]

theorem uptoLast?_eq_none_iff : uptoLast? mark text = none ↔ ¬ mark <:+: text := by
  rw [uptoLast?, Option.map_eq_none_iff, fromFirst?_eq_none_iff, List.reverse_infix]

theorem uptoLast?_self (mark : List Char) : uptoLast? mark mark = some mark := by
  have hfirst : fromFirst? mark.reverse mark.reverse = some mark.reverse := by
    cases mark.reverse <;> simp [fromFirst?]
  rw [uptoLast?, hfirst, Option.map_some, List.reverse_reverse]

/-- The last line that has a mark is cut off after the last occurrence, and the lines after it are
left out. -/
theorem cutAfterLast_of_uptoLast? (lines : List (List Char)) (hcut : uptoLast? mark line = some cut)
    (hafter : ∀ other ∈ after, ¬ mark <:+: other) :
    cutAfterLast mark (lines ++ line :: after) = lines ++ [cut] := by
  have hdrop : (lines ++ line :: after).reverse.dropWhile
      (fun line => (uptoLast? mark line).isNone) = line :: lines.reverse := by
    rw [List.reverse_append, List.reverse_cons, List.append_assoc, List.dropWhile_append_of_pos]
    · simp [hcut]
    · intro other hother
      simpa [uptoLast?_eq_none_iff] using hafter other (List.mem_reverse.mp hother)
  rw [cutAfterLast, hdrop]
  simp [hcut]

end Marks

/-- A line without tabs is its only token. -/
theorem tokens_eq_singleton {line : List Char} (h : '\t' ∉ line) : tokens line = [line] :=
  List.splitOnP_eq_singleton fun c hc => by
    rw [beq_eq_false_iff_ne]
    rintro rfl
    exact h hc

/-- A score of a single spine: comments, the line that announces the spine, any lines, the line that
terminates it, and comments again. -/
structure SingleSpine where
  before : List (List Char)
  header : List Char
  body : List (List Char)
  after : List (List Char)
  comment_before : ∀ line ∈ before, line.head? = some '!' ∧ ¬ kernSpine <:+: line
  announced : kernSpine <+: header
  comment_after : ∀ line ∈ after, line.head? = some '!' ∧ ¬ terminator <:+: line
  apart : ∀ line ∈ before ++ header :: (body ++ after), '\n' ∉ line ∧ '\t' ∉ line

namespace SingleSpine

/-- The lines of the spine. -/
def spine (parts : SingleSpine) : List (List Char) :=
  parts.header :: (parts.body ++ [terminator])

/-- The text of the score. A newline ends each of its lines. -/
def text (parts : SingleSpine) : List Char :=
  terminatedText parts.before ++ (terminatedText parts.spine ++ terminatedText parts.after)

variable (parts : SingleSpine)

theorem not_mem_of_mem_spine : ∀ line ∈ parts.spine, '\n' ∉ line ∧ '\t' ∉ line := by
  have hheader := parts.apart parts.header (by simp)
  have hbody : ∀ line ∈ parts.body, '\n' ∉ line ∧ '\t' ∉ line :=
    fun line hline => parts.apart line (by simp [hline])
  exact List.forall_mem_cons.mpr ⟨hheader, List.forall_mem_append.mpr
    ⟨hbody, List.forall_mem_singleton.mpr (by decide)⟩⟩

theorem lines_text :
    lines parts.text = parts.before ++ (parts.spine ++ (parts.after ++ [[]])) := by
  have hbefore : ∀ line ∈ parts.before, '\n' ∉ line :=
    fun line hline => (parts.apart line (by simp [hline])).1
  have hafter : ∀ line ∈ parts.after, '\n' ∉ line :=
    fun line hline => (parts.apart line (by simp [hline])).1
  have hspine : ∀ line ∈ parts.spine, '\n' ∉ line :=
    fun line hline => (parts.not_mem_of_mem_spine line hline).1
  rw [text, lines_terminatedText hbefore, lines_terminatedText hspine,
    ← List.append_nil (terminatedText parts.after), lines_terminatedText hafter]
  rfl

theorem spineLines_text : spineLines parts.text = parts.spine := by
  have hdrop : (lines parts.text).dropWhile (fun line => (fromFirst? kernSpine line).isNone) =
      parts.spine ++ (parts.after ++ [[]]) := by
    rw [lines_text, List.dropWhile_append_of_pos]
    · have hheader : fromFirst? kernSpine parts.header ≠ none :=
        fun hnone => fromFirst?_eq_none_iff.mp hnone parts.announced.isInfix
      simp [spine, hheader]
    · intro line hline
      simpa [fromFirst?_eq_none_iff] using (parts.comment_before line hline).2
  have hafter : ∀ line ∈ parts.after ++ [[]], ¬ terminator <:+: line :=
    List.forall_mem_append.mpr ⟨fun line hline => (parts.comment_after line hline).2,
      List.forall_mem_singleton.mpr (by decide)⟩
  rw [spineLines, hdrop]
  exact (congrArg _ (by simp [spine])).trans
    (cutAfterLast_of_uptoLast? (parts.header :: parts.body) (uptoLast?_self terminator) hafter)

/-- The only voice of a score of a single spine is the text of the spine. -/
theorem voices_text : voices parts.text = [terminatedText parts.spine] := by
  have htokens : parts.spine.map tokens = parts.spine.map fun line => [line] :=
    List.map_congr_left fun line hline =>
      tokens_eq_singleton (parts.not_mem_of_mem_spine line hline).2
  have hvoice : voice (parts.spine.map tokens) 0 = terminatedText parts.spine := by
    rw [htokens, voice, List.flatMap_map]
    rfl
  have hcolumns : ((parts.spine.map tokens).head?.map List.length).getD 0 = 1 := by
    rw [htokens]
    rfl
  have hprefix : kernSpine.isPrefixOf (terminatedText parts.spine) = true := by
    rw [List.isPrefixOf_iff_prefix, spine, Record.terminatedText_cons]
    exact parts.announced.trans (List.prefix_append ..)
  rw [voices, spineLines_text, hcolumns, List.range_one, List.map_singleton, hvoice,
    List.filter_cons_of_pos hprefix, List.filter_nil]

end SingleSpine

end MotifSearch.Kern
