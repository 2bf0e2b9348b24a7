import Mathlib.Data.List.Chain
import MotifSearch.Kern.Marked
import MotifSearch.Proofs.Kern.Columns

/-!
# Comments around the spines of a score

A comment in front of a score or after it is no part of the spines, but the two marks are also found
in comments. In front of the score, a comment that has the mark of a kern spine hides the line that
announces the spines, and no voice is left. After the score, a comment that has a terminator becomes
one more line of the first column, up to its last terminator. Other comments change nothing, and one
of these is the legend, after a marked score.

## Main definitions

* `Kern.Spines` — the lines of a score that begins and ends with its spines
* `Kern.IsComment` — a comment of a whole line

## Main results

* `Spines.voices_comment`, `Spines.voices_hidden` — a comment in front of the score
* `Spines.voices_append_comment`, `Spines.voices_append_terminated` — a comment after it
* `Spines.voices_append_legend` — the legend after a score leaves its voices as they are
-/

namespace MotifSearch.Kern

open Record (terminatedText)

/-- The lines of a score that begins with the line that announces its spines and ends with the line
that terminates them. -/
structure Spines where
  header : List Char
  body : List (List Char)
  last : List Char
  announced : kernSpine ∈ tokens header
  terminated : ∀ token ∈ tokens last, token = terminator
  apart : ∀ line ∈ header :: (body ++ [last]), '\n' ∉ line

/-- A comment takes a line of its own and has no columns. -/
structure IsComment (comment : List Char) : Prop where
  starts : "!!".toList <+: comment
  whole : '\n' ∉ comment
  single : '\t' ∉ comment

/-- A token is a part of its line. -/
theorem infix_of_mem_tokens {line token : List Char} (h : token ∈ tokens line) :
    token <:+: line := by
  obtain ⟨column, hcolumn⟩ := List.getElem?_of_mem h
  obtain ⟨-, lead, rest, rfl, -⟩ := exists_of_getElem?_tokens hcolumn
  exact ⟨lead, rest, List.append_assoc ..⟩

/-- A line whose tokens are all the same ends with it. -/
theorem suffix_of_forall_tokens {mark line : List Char} (h : ∀ token ∈ tokens line, token = mark) :
    mark <:+ line := by
  obtain ⟨first, others, htokens, hline, -⟩ := Record.exists_tokens line
  rw [htokens] at h
  rcases List.eq_nil_or_concat others with rfl | ⟨front, token, hothers⟩
  · obtain rfl := h first (by simp)
    rw [hline]
    simp
  · rw [List.concat_eq_append] at hothers
    subst hothers
    obtain rfl := h token (by simp)
    rw [hline, List.flatMap_append, List.flatMap_singleton, ← List.append_assoc]
    exact (List.suffix_cons '\t' token).trans (List.suffix_append ..)

/-- A line that ends with a mark is kept as it is. -/
theorem uptoLast?_of_suffix {mark line : List Char} (h : mark <:+ line) :
    uptoLast? mark line = some line := by
  obtain ⟨lead, rfl⟩ := h
  refine uptoLast?_of_isLast ⟨List.prefix_rfl, fun other hother => ?_⟩
  have hlength := hother.length_le
  rw [List.length_append, List.length_append] at hlength
  exact Nat.le_of_add_le_add_right hlength

theorem voices_congr {score other : List Char} (h : spineLines score = spineLines other) :
    voices score = voices other := by
  rw [voices, voices, h]

namespace Spines

variable (spines : Spines) {comment lead : List Char}

/-- The lines of the spines. -/
def lines : List (List Char) :=
  spines.header :: (spines.body ++ [spines.last])

/-- The text of the score. -/
def text : List Char :=
  terminatedText spines.lines

theorem lines_text_append (rest : List Char) :
    Kern.lines (spines.text ++ rest) = spines.lines ++ Kern.lines rest :=
  lines_terminatedText spines.apart rest

/-- The lines of the spines of a score that goes on after them. -/
theorem spineLines_text_append (rest : List Char) :
    spineLines (spines.text ++ rest) =
      cutAfterLast terminator (spines.lines ++ Kern.lines rest) := by
  have hheader : fromFirst? kernSpine spines.header ≠ none := fun hnone =>
    fromFirst?_eq_none_iff.mp hnone (infix_of_mem_tokens spines.announced)
  rw [spineLines, lines_text_append, lines, List.cons_append,
    List.dropWhile_cons_of_neg (by simpa using hheader)]

/-- Nothing is left out before the line that terminates the spines. -/
theorem cutAfterLast_lines (first : List (List Char)) {after : List (List Char)}
    (hafter : ∀ line ∈ after, ¬ terminator <:+: line) :
    cutAfterLast terminator (first ++ (spines.lines ++ after)) = first ++ spines.lines := by
  have hlast := uptoLast?_of_suffix (suffix_of_forall_tokens spines.terminated)
  have hcut := cutAfterLast_of_uptoLast? (first ++ spines.header :: spines.body) hlast hafter
  simpa [lines] using hcut

theorem spineLines_text : spineLines spines.text = spines.lines := by
  rw [← List.append_nil spines.text, spineLines_text_append]
  exact spines.cutAfterLast_lines [] (by decide)

/-- A comment in front of the score changes nothing if it does not have the mark of a kern spine. -/
theorem voices_comment (hcomment : IsComment comment) (h : ¬ kernSpine <:+: comment) :
    voices (comment ++ '\n' :: spines.text) = voices spines.text := by
  have hnone : fromFirst? kernSpine comment = none := fromFirst?_eq_none_iff.mpr h
  apply voices_congr
  rw [spineLines, lines_append_newline hcomment.whole, List.dropWhile_cons_of_pos (by simp [hnone])]
  rfl

/-- A comment in front of the score that has the mark of a kern spine hides all voices. -/
theorem voices_hidden (hcomment : IsComment comment) (h : kernSpine <:+: comment) :
    voices (comment ++ '\n' :: spines.text) = [] := by
  have hsome : fromFirst? kernSpine comment ≠ none := fun hnone =>
    fromFirst?_eq_none_iff.mp hnone h
  have hspine : spineLines (comment ++ '\n' :: spines.text) = comment :: spines.lines := by
    rw [spineLines, lines_append_newline hcomment.whole,
      List.dropWhile_cons_of_neg (by simpa using hsome), ← List.append_nil spines.text,
      lines_text_append]
    exact spines.cutAfterLast_lines [comment] (by decide)
  -- The one column that the comment announces is not a kern spine.
  have hother : kernSpine.isPrefixOf comment = false := by
    obtain ⟨rest, rfl⟩ := hcomment.starts
    rfl
  rw [voices_eq_filter hspine, tokens_eq_singleton hcomment.single]
  simp [hother]

/-- A comment after the score changes nothing if it has no terminator. -/
theorem voices_append_comment (hcomment : IsComment comment) (h : ¬ terminator <:+: comment) :
    voices (spines.text ++ (comment ++ ['\n'])) = voices spines.text := by
  apply voices_congr
  rw [spineLines_text_append, spineLines_text, lines_append_newline hcomment.whole]
  refine spines.cutAfterLast_lines [] ?_
  exact List.forall_mem_cons.mpr ⟨h, by decide⟩

/-- A comment after the score that has a terminator is one more line of the first column, up to its
last terminator. -/
theorem spineLines_append_terminated (hcomment : IsComment comment)
    (h : IsLast terminator comment lead) :
    spineLines (spines.text ++ (comment ++ ['\n'])) = spines.lines ++ [lead ++ terminator] := by
  rw [spineLines_text_append, lines_append_newline hcomment.whole]
  exact cutAfterLast_of_uptoLast? spines.lines (uptoLast?_of_isLast h) (by decide)

/-- The first column, if it is a kern spine, is the voice that gains this line. -/
theorem voices_append_terminated (hcomment : IsComment comment)
    (h : IsLast terminator comment lead) :
    voices (spines.text ++ (comment ++ ['\n'])) =
      if kernSpine <+: spines.header then
        (voices spines.text).modifyHead (· ++ (lead ++ terminator ++ ['\n']))
      else voices spines.text := by
  obtain ⟨first, others, htokens, hheader, -⟩ := Record.exists_tokens spines.header
  have hkern : kernSpine.isPrefixOf first = true ↔ kernSpine <+: spines.header := by
    rw [hheader, List.isPrefixOf_iff_prefix]
    cases others with
    | nil => simp
    | cons other others => exact (prefix_append_cons_iff (by decide)).symm
  have htab : '\t' ∉ lead ++ terminator := fun hmem => hcomment.single (h.occurs.subset hmem)
  have hcolumns : ∀ column, columnTokens (spines.lines ++ [lead ++ terminator]) column =
      columnTokens spines.lines column ++ if column = 0 then [lead ++ terminator] else [] := by
    intro column
    rw [columnTokens_append]
    cases column <;> simp [columnTokens, tokens_eq_singleton htab]
  rw [voices_eq_filter (spines.spineLines_append_terminated hcomment h),
    voices_eq_filter spines.spineLines_text, spines.spineLines_append_terminated hcomment h,
    spines.spineLines_text, htokens, List.length_cons, List.range_succ_eq_map, List.filter_cons,
    List.getElem?_cons_zero, Option.any_some, List.filter_map]
  have hsucc : ∀ columns : List Nat,
      ((columns.map Nat.succ).map fun column =>
        terminatedText (columnTokens (spines.lines ++ [lead ++ terminator]) column)) =
      (columns.map Nat.succ).map fun column =>
        terminatedText (columnTokens spines.lines column) := by
    intro columns
    rw [List.map_map, List.map_map]
    refine List.map_congr_left fun column _ => ?_
    rw [Function.comp_apply, hcolumns, if_neg (Nat.succ_ne_zero column), List.append_nil]
    rfl
  by_cases hannounced : kernSpine <+: spines.header
  · rw [if_pos (hkern.mpr hannounced), if_pos hannounced, List.map_cons, List.map_cons,
      List.modifyHead_cons, hsucc, hcolumns, if_pos rfl, Record.terminatedText_append]
    simp
  · rw [if_neg (hkern.not.mpr hannounced), if_neg hannounced, hsucc]

end Spines

section Legend

variable {marked : MarkedScore}

/-- The legend has the characters of its text and the marker. -/
private theorem not_mem_legend {c : Char} (hmarker : c ≠ marked.marker)
    (hlead : c ∉ "!!!RDF**kern: ".toList) (hrest : c ∉ " = marked note".toList) :
    c ∉ marked.legend := by
  intro h
  rcases List.mem_append.mp h with h | h
  · exact hlead h
  · exact (List.mem_cons.mp h).elim hmarker hrest

theorem isComment_legend (hnewline : marked.marker ≠ '\n') (htab : marked.marker ≠ '\t') :
    IsComment marked.legend where
  starts := by
    have hlead : "!!".toList <+: "!!!RDF**kern: ".toList := by decide +kernel
    exact hlead.trans (List.prefix_append ..)
  whole := not_mem_legend hnewline.symm (by decide +kernel) (by decide +kernel)
  single := not_mem_legend htab.symm (by decide +kernel) (by decide +kernel)

/-- The legend has no terminator, whatever the marker is: there is a blank on either side of it. -/
theorem not_terminator_infix_legend : ¬ terminator <:+: marked.legend := by
  intro h
  have hlead : "!!!RDF**kern: ".toList.getLast? = some ' ' := by decide +kernel
  have hrest : " = marked note".toList.head? = some ' ' := by decide +kernel
  have hchain : marked.legend.IsChain fun c next => ¬ (c = '*' ∧ next = '-') := by
    refine List.isChain_append.mpr
      ⟨by decide +kernel, List.isChain_cons.mpr ⟨?_, by decide +kernel⟩, ?_⟩
    · rw [hrest]
      rintro _ ⟨⟩ ⟨-, hnext⟩
      cases hnext
    · rw [hlead]
      rintro _ ⟨⟩ _ _ ⟨hc, -⟩
      cases hc
  have hterminator := List.IsChain.infix hchain h
  exact absurd hterminator (by decide)

/-- The legend after a score leaves its voices as they are. -/
theorem Spines.voices_append_legend (spines : Spines) (hnewline : marked.marker ≠ '\n')
    (htab : marked.marker ≠ '\t') :
    voices (spines.text ++ (marked.legend ++ ['\n'])) = voices spines.text :=
  spines.voices_append_comment (isComment_legend hnewline htab) not_terminator_infix_legend

end Legend

end MotifSearch.Kern
