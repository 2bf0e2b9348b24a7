import MotifSearch.Proofs.Kern.Slice

/-!
# Voices as columns

The voices of a score are the columns of its slice that are announced as kern spines, each written
as a text of its own. A line that has fewer tokens than the first one leaves no trace in the columns
that it does not have, and of a line that has more of them the others are left out. If all lines
have the same number of tokens and all columns are kern spines that are terminated, nothing is lost:
the slice can be put together from the voices, and a voice has no other voice than itself.

## Main definitions

* `Kern.kernColumns` — the texts of the columns of a slice that are kern spines
* `Kern.IsGrid` — all lines of a slice have the same columns, and these are complete kern spines
* `Kern.sideBySide` — texts put together line by line

## Main results

* `voices_eq_filter` — the voices of a score by the lines of its spines
* `sideBySide_columns` — the columns of lines of equal width, put together
* `voices_eq_kernColumns` — the voices of a score are the columns of its slice, and those of a grid
  give it back
-/

namespace MotifSearch.Kern

open Record (terminatedText terminatedText_cons terminatedText_append)

/-- The texts of the columns of a slice that its first line announces as kern spines. -/
def kernColumns (slice : List Char) : List (List Char) :=
  let header := ((lines slice).head?.map tokens).getD []
  let isKern (column : Nat) : Bool := header[column]?.any kernSpine.isPrefixOf
  ((List.range header.length).filter isKern).map fun column =>
    terminatedText (columnTokens (lines slice) column)

/-- The lines that the lines of several columns make up. -/
def joinColumns : List (List (List Char)) → List (List Char)
  | [] => []
  | [column] => column
  | column :: next :: others =>
    List.zipWith (fun token line => token ++ '\t' :: line) column (joinColumns (next :: others))

/-- Texts of lines that are put together line by line, with tabs between them. -/
def sideBySide (texts : List (List Char)) : List Char :=
  unlines (joinColumns (texts.map fun text => (lines text).dropLast))

/-- All lines of a slice have the same number of columns, each of which is announced as a kern spine
by the first line and terminated by the last one. -/
structure IsGrid (slice : List Char) : Prop where
  width : ∃ width, ∀ line ∈ lines slice, (tokens line).length = width
  announced : ∀ header ∈ (lines slice).head?, ∀ token ∈ tokens header, kernSpine <+: token
  terminated : ∀ last ∈ (lines slice).getLast?, ∀ token ∈ tokens last, token = terminator

section Columns

variable {line token : List Char} {rest : List (List Char)} {column : Nat}

theorem columnTokens_cons (h : (tokens line)[column]? = some token) :
    columnTokens (line :: rest) column = token :: columnTokens rest column := by
  rw [columnTokens, List.filterMap_cons, h]
  rfl

/-- A mark that ends before some character does not depend on what follows it. -/
theorem prefix_append_cons_iff {mark text : List Char} {c : Char} (hmark : c ∉ mark) :
    mark <+: token ++ c :: text ↔ mark <+: token := by
  refine ⟨fun h => ?_, fun h => h.trans (List.prefix_append ..)⟩
  by_cases hlength : mark.length ≤ token.length
  · exact List.prefix_of_prefix_length_le h (List.prefix_append ..) hlength
  · -- A longer mark would have the character.
    have hlonger : token ++ [c] <+: mark :=
      List.prefix_of_prefix_length_le (by simp) h (by simp; omega)
    exact absurd (hlonger.subset (by simp)) hmark

/-- The voices of a score are the columns of the lines of its spines, those of the first of these
lines that begin with a kern spine. -/
theorem voices_eq_filter {score header : List Char} (h : spineLines score = header :: rest) :
    voices score = ((List.range (tokens header).length).filter fun column =>
      (tokens header)[column]?.any kernSpine.isPrefixOf).map fun column =>
        terminatedText (columnTokens (spineLines score) column) := by
  have hcolumns : (((spineLines score).map tokens).head?.map List.length).getD 0 =
      (tokens header).length := by rw [h]; rfl
  rw [voices, hcolumns]
  rw [List.filter_map]
  congr 1
  · funext column
    exact voice_eq_terminatedText _ column
  · refine List.filter_congr fun column hcolumn => ?_
    have htoken := List.getElem?_eq_getElem (List.mem_range.mp hcolumn)
    rw [Function.comp_apply, voice_eq_terminatedText, h, columnTokens_cons htoken, htoken,
      Option.any_some, Bool.eq_iff_iff, List.isPrefixOf_iff_prefix, List.isPrefixOf_iff_prefix,
      terminatedText_cons]
    exact prefix_append_cons_iff (by decide)

end Columns

section Grid

variable {row : List (List Char)} {columns : List (List (List Char))}

/-- A row before several columns is a line before the lines that these make up. -/
theorem joinColumns_zipWith_cons (hlength : row.length = columns.length) (hne : row ≠ []) :
    joinColumns (List.zipWith List.cons row columns) =
      ['\t'].intercalate row :: joinColumns columns := by
  induction row generalizing columns with
  | nil => exact absurd rfl hne
  | cons token row ih =>
    obtain _ | ⟨column, columns⟩ := columns
    · cases hlength
    rw [List.zipWith_cons_cons]
    obtain _ | ⟨next, row⟩ := row
    · obtain rfl := List.length_eq_zero_iff.mp (Nat.succ.inj hlength).symm
      simp [joinColumns]
    · obtain _ | ⟨second, columns⟩ := columns
      · cases Nat.succ.inj hlength
      have hothers := ih (Nat.succ.inj hlength) (List.cons_ne_nil _ _)
      rw [List.zipWith_cons_cons] at hothers ⊢
      rw [joinColumns, hothers, joinColumns, List.zipWith_cons_cons, List.intercalate_cons_cons]
      simp

/-- Lines of equal width are made up by their columns. -/
theorem joinColumns_columnTokens {whole : List (List Char)} {width : Nat} (hwidth : width ≠ 0)
    (h : ∀ line ∈ whole, (tokens line).length = width) :
    joinColumns ((List.range width).map (columnTokens whole)) = whole := by
  induction whole with
  | nil =>
    obtain ⟨first, others, hcolumns⟩ := List.exists_cons_of_ne_nil
      (List.map_eq_nil_iff.not.mpr (List.range_eq_nil.not.mpr hwidth) :
        (List.range width).map (columnTokens []) ≠ [])
    obtain rfl : first = [] := by
      have hmem : first ∈ (List.range width).map (columnTokens []) := by simp [hcolumns]
      obtain ⟨_, -, rfl⟩ := List.mem_map.mp hmem
      rfl
    rw [hcolumns]
    cases others with
    | nil => rfl
    | cons next others => exact List.zipWith_nil_left
  | cons line whole ih =>
    obtain ⟨hline, hwhole⟩ := List.forall_mem_cons.mp h
    have hcolumns : (List.range width).map (columnTokens (line :: whole)) =
        List.zipWith List.cons (tokens line) ((List.range width).map (columnTokens whole)) := by
      refine List.ext_getElem (by simp [hline]) fun column hcolumn _ => ?_
      have htoken : column < (tokens line).length := by simpa [hline] using hcolumn
      rw [List.getElem_map, List.getElem_range, List.getElem_zipWith, List.getElem_map,
        List.getElem_range]
      exact columnTokens_cons (List.getElem?_eq_getElem htoken)
    rw [hcolumns, joinColumns_zipWith_cons (by simp [hline]), ih hwhole, tokens,
      List.intercalate_splitOn]
    exact List.splitOn_ne_nil '\t' line

end Grid

/-- The voices of a score are the columns of its slice. -/
theorem IsSlice.voices_eq {before slice after : List Char} (h : IsSlice before slice after) :
    voices (before ++ (slice ++ after)) = kernColumns slice := by
  obtain ⟨header, rest, hlines⟩ := List.exists_cons_of_ne_nil (List.splitOn_ne_nil '\n' slice)
  have hlines : lines slice = header :: rest := hlines
  rw [voices_eq_filter (h.spineLines_eq.trans hlines), h.spineLines_eq, kernColumns, hlines]
  rfl

/-- A spine without comments around it is its only voice. -/
theorem voices_terminatedText {header : List Char} {body : List (List Char)}
    (hannounced : kernSpine <+: header) (h : ∀ line ∈ header :: body, '\n' ∉ line ∧ '\t' ∉ line) :
    voices (terminatedText (header :: (body ++ [terminator]))) =
      [terminatedText (header :: (body ++ [terminator]))] := by
  let parts : SingleSpine :=
    { before := []
      header := header
      body := body
      after := []
      comment_before := by simp
      announced := hannounced
      comment_after := by simp
      apart := by simpa using h }
  have htext : parts.text = terminatedText (header :: (body ++ [terminator])) := by
    simp [SingleSpine.text, SingleSpine.spine, parts]
  rw [← htext, parts.voices_text]
  simp [SingleSpine.text, parts]

namespace IsGrid

variable {slice header : List Char} {rest : List (List Char)}

theorem not_mem_of_mem_columnTokens {column : Nat} {token : List Char}
    (h : token ∈ columnTokens (lines slice) column) : '\n' ∉ token ∧ '\t' ∉ token :=
  Kern.not_mem_of_mem_columnTokens (fun _ => Record.not_mem_of_mem_splitOn) h

/-- All columns of a grid are kern spines. -/
theorem kernColumns_eq (h : IsGrid slice) (hlines : lines slice = header :: rest) :
    kernColumns slice = (List.range (tokens header).length).map fun column =>
      terminatedText (columnTokens (lines slice) column) := by
  have hall : (List.range (tokens header).length).filter
      (fun column => (tokens header)[column]?.any kernSpine.isPrefixOf) =
        List.range (tokens header).length := by
    rw [List.filter_eq_self]
    intro column hcolumn
    have htoken := List.getElem?_eq_getElem (List.mem_range.mp hcolumn)
    rw [htoken, Option.any_some, List.isPrefixOf_iff_prefix]
    exact h.announced header (by simp [hlines]) _ (List.mem_of_getElem? htoken)
  rw [kernColumns, hlines]
  exact congrArg _ hall

/-- The columns of a grid give the slice back. -/
theorem sideBySide_kernColumns (h : IsGrid slice) : sideBySide (kernColumns slice) = slice := by
  obtain ⟨header, rest, hlines⟩ := List.exists_cons_of_ne_nil (List.splitOn_ne_nil '\n' slice)
  obtain ⟨width, hwidth⟩ := h.width
  have hheader : (tokens header).length = width := hwidth header (by simp [lines, hlines])
  have hne : (tokens header).length ≠ 0 :=
    List.length_eq_zero_iff.not.mpr (List.splitOn_ne_nil '\t' header)
  have hcolumns : (kernColumns slice).map (fun text => (lines text).dropLast) =
      (List.range (tokens header).length).map (columnTokens (lines slice)) := by
    rw [h.kernColumns_eq hlines, List.map_map]
    refine List.map_congr_left fun column _ => ?_
    have hnewline : ∀ token ∈ columnTokens (lines slice) column, '\n' ∉ token :=
      fun token htoken => (not_mem_of_mem_columnTokens htoken).1
    rw [Function.comp_apply, ← List.append_nil (terminatedText _), lines_terminatedText hnewline]
    exact List.dropLast_concat
  rw [sideBySide, hcolumns, joinColumns_columnTokens hne (hheader ▸ hwidth), unlines_lines]

/-- Each column of a grid is its only voice. -/
theorem voices_of_mem_kernColumns (h : IsGrid slice) {text : List Char}
    (htext : text ∈ kernColumns slice) : voices text = [text] := by
  obtain ⟨header, rest, hlines⟩ := List.exists_cons_of_ne_nil (List.splitOn_ne_nil '\n' slice)
  have hlines : lines slice = header :: rest := hlines
  obtain ⟨width, hwidth⟩ := h.width
  rw [h.kernColumns_eq hlines] at htext
  obtain ⟨column, hcolumn, rfl⟩ := List.mem_map.mp htext
  have hlength := List.mem_range.mp hcolumn
  obtain ⟨token, htoken⟩ : ∃ token, (tokens header)[column]? = some token :=
    ⟨_, List.getElem?_eq_getElem hlength⟩
  have hannounced := h.announced header (by simp [hlines]) _ (List.mem_of_getElem? htoken)
  -- The line that terminates the columns is another one than the one that announces them.
  obtain ⟨body, last, rfl⟩ : ∃ body last, rest = body ++ [last] := by
    rcases List.eq_nil_or_concat rest with rfl | ⟨body, last, hrest⟩
    · have hterminated := h.terminated header (by simp [hlines]) _ (List.mem_of_getElem? htoken)
      rw [hterminated] at hannounced
      exact absurd hannounced (by decide)
    · exact ⟨body, last, hrest.trans List.concat_eq_append⟩
  have hgetLast : (lines slice).getLast? = some last := by
    rw [hlines, ← List.cons_append, List.getLast?_concat]
  have hlast : (tokens last)[column]? = some terminator := by
    have hsame : (tokens last).length = (tokens header).length :=
      (hwidth last (by simp [hlines])).trans (hwidth header (by simp [hlines])).symm
    have hend := List.getElem?_eq_getElem (hsame ▸ hlength)
    rw [hend, h.terminated last hgetLast _ (List.mem_of_getElem? hend)]
  have hcolumn : columnTokens (lines slice) column =
      token :: (columnTokens body column ++ [terminator]) := by
    rw [hlines, columnTokens_cons htoken, columnTokens_append, columnTokens_cons hlast]
    rfl
  have hmem : ∀ token ∈ columnTokens (lines slice) column, '\n' ∉ token ∧ '\t' ∉ token :=
    fun _ => not_mem_of_mem_columnTokens
  rw [hcolumn] at hmem ⊢
  rw [← List.cons_append] at hmem
  exact voices_terminatedText hannounced (List.forall_mem_append.mp hmem).1

end IsGrid

/-- A score with a kern spine has a slice, and its voices are the columns of the slice that are kern
spines. If the slice is a grid, then the voices give it back, and each of them is a score of that
one voice. -/
theorem voices_eq_kernColumns {score : List Char} (h : kernSpine <:+: score) :
    (∃ before slice after, score = before ++ (slice ++ after) ∧ IsSlice before slice after) ∧
    ∀ before slice after, score = before ++ (slice ++ after) → IsSlice before slice after →
      voices score = kernColumns slice ∧
        (IsGrid slice →
          sideBySide (voices score) = slice ∧ ∀ text ∈ voices score, voices text = [text]) := by
  refine ⟨exists_isSlice h, ?_⟩
  rintro before slice after rfl hslice
  rw [hslice.voices_eq]
  exact ⟨rfl, fun hgrid =>
    ⟨hgrid.sideBySide_kernColumns, fun _ => hgrid.voices_of_mem_kernColumns⟩⟩

/-- A score of two kern spines with comments around it: its voices, put together, are the slice
without the comments. -/
theorem voices_eq_kernColumns_twoSpines :
    kernSpine <:+: "!! a\n**kern\t**kern\n4c\t4e\n*-\t*-\n!! b\n".toList ∧
      voices "!! a\n**kern\t**kern\n4c\t4e\n*-\t*-\n!! b\n".toList =
        ["**kern\n4c\n*-\n".toList, "**kern\n4e\n*-\n".toList] ∧
      sideBySide (voices "!! a\n**kern\t**kern\n4c\t4e\n*-\t*-\n!! b\n".toList) =
        "**kern\t**kern\n4c\t4e\n*-\t*-".toList ∧
      ∀ text ∈ voices "!! a\n**kern\t**kern\n4c\t4e\n*-\t*-\n!! b\n".toList,
        voices text = [text] := by
  have hspine : kernSpine <:+: "!! a\n**kern\t**kern\n4c\t4e\n*-\t*-\n!! b\n".toList :=
    ⟨"!! a\n".toList, "\t**kern\n4c\t4e\n*-\t*-\n!! b\n".toList, by decide⟩
  obtain ⟨⟨before, slice, after, hscore, hslice⟩, hall⟩ := voices_eq_kernColumns hspine
  obtain ⟨hvoices, hgrid⟩ := hall before slice after hscore hslice
  -- The slice is found from its lines.
  have hlines := hslice.spineLines_eq
  rw [← hscore] at hlines
  have hsame : slice = "**kern\t**kern\n4c\t4e\n*-\t*-".toList := by
    rw [← unlines_lines slice, ← hlines]
    decide +kernel
  subst hsame
  have hgrid := hgrid
    { width := ⟨2, by decide +kernel⟩
      announced := by decide +kernel
      terminated := by decide +kernel }
  exact ⟨hspine, hvoices.trans (by decide +kernel), hgrid⟩

end MotifSearch.Kern
