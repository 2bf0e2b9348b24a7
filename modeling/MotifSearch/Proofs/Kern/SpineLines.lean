import MotifSearch.Proofs.Kern.LineSpans

/-!
# The lines of the spines in a score

The lines from which the voices of a score are taken follow each other in the score as well. Only
the last one of them can be cut off, and then it ends with a terminator. All of them are ended by a
newline of the score, unless the last line of the score, which none ends, is one of them.

## Main definitions

* `Kern.Shortened` — a line is another one, which may be cut off after a mark
* `Kern.endedSpineLines` — the lines of the spines that are ended by a newline of the score
* `Kern.columnTokens`, `Kern.columnText`, `Kern.endedColumnText` — the tokens of a column, the text
  of all of them, and of those whose lines are ended

## Main results

* `exists_cutAfterLast` — lines up to the last occurrence of a mark
* `exists_endedSpineLines` — where the lines of the spines stand in the score
* `voice_eq_terminatedText` — a voice by its lines
* `exists_of_getElem?_tokens` — where a token stands in its line
* `exists_endedColumnText` — lines of a column are ended if a newline ends the score
-/

namespace MotifSearch.Kern

open Record (terminatedText terminatedText_append exists_terminatedText exists_tokens)

variable {mark text found line whole : List Char} {lines : List (List Char)}

/-- A line is all of another one, or it is that line up to some occurrence of a mark. -/
def Shortened (mark line whole : List Char) : Prop :=
  ∃ rest, whole = line ++ rest ∧ (rest = [] ∨ mark <:+ line)

theorem Shortened.refl (mark line : List Char) : Shortened mark line line :=
  ⟨[], (List.append_nil line).symm, Or.inl rfl⟩

theorem exists_of_fromFirst? (h : fromFirst? mark text = some found) :
    ∃ before, text = before ++ found ∧ mark <+: found := by
  induction text with
  | nil =>
    rw [fromFirst?] at h
    split at h
    · next hmark =>
      obtain rfl := Option.some.inj h
      exact ⟨[], rfl, hmark ▸ List.prefix_rfl⟩
    · cases h
  | cons c text ih =>
    rw [fromFirst?] at h
    split at h
    · next hprefix =>
      obtain rfl := Option.some.inj h
      exact ⟨[], rfl, List.isPrefixOf_iff_prefix.mp hprefix⟩
    · obtain ⟨before, rfl, hprefix⟩ := ih h
      exact ⟨c :: before, rfl, hprefix⟩

theorem shortened_of_uptoLast? (h : uptoLast? mark whole = some line) :
    Shortened mark line whole := by
  obtain ⟨found, hfound, rfl⟩ := Option.map_eq_some_iff.mp h
  obtain ⟨before, hwhole, hprefix⟩ := exists_of_fromFirst? hfound
  refine ⟨before.reverse, ?_, Or.inr ?_⟩
  · rw [← List.reverse_append, ← hwhole, List.reverse_reverse]
  · rwa [← List.reverse_prefix, List.reverse_reverse]

private theorem shortened_diagonal (mark : List Char) (lines : List (List Char)) :
    ∀ pair ∈ lines.map fun line => (line, line), Shortened mark pair.1 pair.2 := by
  intro pair hpair
  obtain ⟨line, -, rfl⟩ := List.mem_map.mp hpair
  exact .refl mark line

/-- Lines up to the last occurrence of a mark are the first ones of the lines, the last one of them
cut off after the mark. -/
theorem exists_cutAfterLast (mark : List Char) (lines : List (List Char)) :
    ∃ (pairs : List (List Char × List Char)) (behind : List (List Char)),
      cutAfterLast mark lines = pairs.map Prod.fst ∧ lines = pairs.map Prod.snd ++ behind ∧
        ∀ pair ∈ pairs, Shortened mark pair.1 pair.2 := by
  unfold cutAfterLast
  split
  · exact ⟨lines.map fun line => (line, line), [], by simp [Function.comp_def],
      by simp [Function.comp_def], shortened_diagonal mark lines⟩
  · next last before hdrop =>
    -- The last line that has the mark is cut off, and all lines after it are left out.
    obtain ⟨after, hlines⟩ : ∃ after, lines = before.reverse ++ last :: after := by
      obtain ⟨after, hafter⟩ := List.dropWhile_suffix (l := lines.reverse)
        fun line => (uptoLast? mark line).isNone
      refine ⟨after.reverse, ?_⟩
      rw [hdrop] at hafter
      rw [← List.reverse_reverse lines, ← hafter]
      simp
    refine ⟨before.reverse.map (fun line => (line, line)) ++
      [((uptoLast? mark last).getD last, last)], after, by simp [Function.comp_def],
      by simp [hlines, Function.comp_def], ?_⟩
    refine List.forall_mem_append.mpr ⟨shortened_diagonal mark _,
      List.forall_mem_singleton.mpr ?_⟩
    cases hlast : uptoLast? mark last with
    | none => exact .refl mark last
    | some line => exact shortened_of_uptoLast? hlast

/-- The lines of the spines that are ended by a newline of the score. -/
def endedSpineLines (score : List Char) : List (List Char) :=
  (spineLines score).take
    (((Kern.lines score).dropWhile fun line => (fromFirst? kernSpine line).isNone).length - 1)

/-- The lines of the spines are some of the lines of the score, and those that are ended are the
ones that come before its last line. -/
private theorem exists_spineLines (score : List Char) :
    ∃ (before : List (List Char)) (pairs : List (List Char × List Char))
      (behind : List (List Char)), Kern.lines score = before ++ (pairs.map Prod.snd ++ behind) ∧
        spineLines score = pairs.map Prod.fst ∧
        endedSpineLines score =
          (pairs.take ((pairs.map Prod.snd ++ behind).length - 1)).map Prod.fst ∧
        ∀ pair ∈ pairs, '\n' ∉ pair.2 ∧ Shortened terminator pair.1 pair.2 := by
  obtain ⟨before, hbefore⟩ := List.dropWhile_suffix (l := Kern.lines score)
    fun line => (fromFirst? kernSpine line).isNone
  obtain ⟨pairs, behind, hcut, hspine, hpairs⟩ := exists_cutAfterLast terminator
    ((Kern.lines score).dropWhile fun line => (fromFirst? kernSpine line).isNone)
  rw [hspine] at hbefore
  refine ⟨before, pairs, behind, hbefore.symm, hcut, ?_, fun pair hpair => ⟨?_, hpairs pair hpair⟩⟩
  · rw [endedSpineLines, spineLines, hcut, hspine, List.map_take]
  · have hmem : pair.2 ∈ Kern.lines score := by
      rw [← hbefore]
      exact List.mem_append_right _ (List.mem_append_left _ (List.mem_map_of_mem hpair))
    exact Record.not_mem_of_mem_splitOn hmem

/-- The lines of the spines that are ended follow each other in the score. -/
theorem exists_endedSpineLines (score : List Char) :
    ∃ (before : List (List Char)) (pairs : List (List Char × List Char)) (after : List Char),
      endedSpineLines score = pairs.map Prod.fst ∧
      score = terminatedText before ++ (terminatedText (pairs.map Prod.snd) ++ after) ∧
      ∀ pair ∈ pairs, '\n' ∉ pair.2 ∧ Shortened terminator pair.1 pair.2 := by
  obtain ⟨tail, hscore, -, -⟩ := exists_terminatedText score
  obtain ⟨before, pairs, behind, hlines, -, hended, hpairs⟩ := exists_spineLines score
  rw [hended]
  by_cases hempty : pairs.map Prod.snd ++ behind = []
  · exact ⟨_, [], tail, by simp [hempty], hscore, by simp⟩
  · -- All lines of the score but the last one are ended.
    rw [hlines, List.dropLast_append_of_ne_nil hempty, List.dropLast_eq_take, List.take_append,
      ← List.map_take, terminatedText_append, terminatedText_append, List.append_assoc,
      List.append_assoc] at hscore
    exact ⟨before, _, _, rfl, hscore, fun pair hpair => hpairs pair (List.mem_of_mem_take hpair)⟩

/-- After the newline at the end of a score there is one more line, which holds nothing. -/
theorem lines_eq_concat_nil {score : List Char} (h : score.getLast? = some '\n') :
    Kern.lines score = (Kern.lines score).dropLast ++ [[]] := by
  obtain ⟨tail, hscore, htail, hlines⟩ := exists_terminatedText score
  have hnil : tail = [] := by
    cases hlast : tail.getLast? with
    | none => exact List.getLast?_eq_none_iff.mp hlast
    | some c =>
      rw [hscore, List.getLast?_append, hlast] at h
      obtain rfl : c = '\n' := by simpa using h
      exact absurd (List.mem_of_getLast? hlast) htail
  rw [hnil] at hscore
  have hall := lines_terminatedText hlines []
  rwa [← hscore] at hall

/-- The lines of the spines are those that are ended and at most one other line. It holds nothing if
the score ends with a newline. -/
theorem exists_spineLines_eq (score : List Char) :
    ∃ rest, spineLines score = endedSpineLines score ++ rest ∧
      (score.getLast? = some '\n' → ∀ line ∈ rest, line = []) := by
  obtain ⟨before, pairs, behind, hlines, hspine, hended, hpairs⟩ := exists_spineLines score
  refine ⟨(pairs.drop ((pairs.map Prod.snd ++ behind).length - 1)).map Prod.fst, ?_,
    fun hlast line hline => ?_⟩
  · rw [hspine, hended, ← List.map_append, List.take_append_drop]
  · obtain ⟨pair, hpair, rfl⟩ := List.mem_map.mp hline
    obtain ⟨-, rest, hrest, -⟩ := hpairs pair (List.mem_of_mem_drop hpair)
    have hdrop : pair.2 ∈ (pairs.map Prod.snd ++ behind).drop
        ((pairs.map Prod.snd ++ behind).length - 1) := by
      rw [List.drop_append, ← List.map_drop]
      exact List.mem_append_left _ (List.mem_map_of_mem hpair)
    generalize pairs.map Prod.snd ++ behind = spine at hlines hdrop
    have hne : spine ≠ [] := List.ne_nil_of_mem (List.mem_of_mem_drop hdrop)
    -- The line is the last one of the score.
    have hconcat : spine = spine.dropLast ++ [[]] := by
      have hall := lines_eq_concat_nil hlast
      rw [hlines, List.dropLast_append_of_ne_nil hne, List.append_assoc] at hall
      exact List.append_cancel_left hall
    rw [hconcat, List.length_append, List.length_singleton, Nat.add_sub_cancel, List.drop_left,
      List.mem_singleton, hrest] at hdrop
    exact (List.append_eq_nil_iff.mp hdrop).1

/-- The tokens of a column, one of each line that has one. -/
def columnTokens (lines : List (List Char)) (column : Nat) : List (List Char) :=
  lines.filterMap fun line => (tokens line)[column]?

theorem columnTokens_append (first second : List (List Char)) (column : Nat) :
    columnTokens (first ++ second) column =
      columnTokens first column ++ columnTokens second column :=
  List.filterMap_append

/-- A voice has the tokens of its column, each as a line of its own. -/
theorem voice_eq_terminatedText (lines : List (List Char)) (column : Nat) :
    voice (lines.map tokens) column = terminatedText (columnTokens lines column) := by
  induction lines with
  | nil => rfl
  | cons line lines ih =>
    rw [voice, List.map_cons, List.flatMap_cons, ← voice, ih, columnTokens, columnTokens,
      List.filterMap_cons]
    cases (tokens line)[column]? <;> simp

private theorem head?_flatMap_tab (tokens : List (List Char)) :
    ∀ c ∈ (tokens.flatMap ('\t' :: ·)).head?, c = '\t' := by
  cases tokens <;> simp

/-- Where a token stands in its line: at the beginning, or after a tab. What follows it begins with
a tab. -/
theorem exists_of_getElem?_tokens {column : Nat} {token : List Char}
    (h : (tokens line)[column]? = some token) :
    '\t' ∉ token ∧ ∃ lead rest, line = lead ++ (token ++ rest) ∧ (∀ c ∈ rest.head?, c = '\t') ∧
      (column = 0 → lead = []) ∧ (column ≠ 0 → ∃ before, lead = before ++ ['\t']) := by
  obtain ⟨first, others, htokens, hline, htabs⟩ := exists_tokens line
  rw [htokens] at h
  refine ⟨htabs token (List.mem_of_getElem? h), ?_⟩
  cases column with
  | zero =>
    obtain rfl := Option.some.inj h
    exact ⟨[], _, hline, head?_flatMap_tab others, fun _ => rfl, fun hne => absurd rfl hne⟩
  | succ column =>
    rw [List.getElem?_cons_succ] at h
    obtain ⟨left, right, rfl⟩ := List.append_of_mem (List.mem_of_getElem? h)
    refine ⟨first ++ left.flatMap ('\t' :: ·) ++ ['\t'], right.flatMap ('\t' :: ·), ?_,
      head?_flatMap_tab right, fun hzero => absurd hzero (Nat.succ_ne_zero column),
      fun _ => ⟨_, rfl⟩⟩
    rw [hline]
    simp

theorem newline_not_mem_of_mem_spineLines {score : List Char} :
    ∀ line ∈ spineLines score, '\n' ∉ line := by
  intro line h
  obtain ⟨-, pairs, -, -, hspine, -, hpairs⟩ := exists_spineLines score
  rw [hspine] at h
  obtain ⟨pair, hpair, rfl⟩ := List.mem_map.mp h
  obtain ⟨hnewline, rest, hrest, -⟩ := hpairs pair hpair
  rw [hrest] at hnewline
  exact fun h => hnewline (List.mem_append_left rest h)

/-- Neither newlines nor tabs are in the tokens of a column. -/
theorem not_mem_of_mem_columnTokens {column : Nat} {token : List Char}
    (hlines : ∀ line ∈ lines, '\n' ∉ line) (h : token ∈ columnTokens lines column) :
    '\n' ∉ token ∧ '\t' ∉ token := by
  obtain ⟨line, hline, htoken⟩ := List.mem_filterMap.mp h
  obtain ⟨htab, lead, rest, rfl, -⟩ := exists_of_getElem?_tokens htoken
  exact ⟨fun hmem => hlines _ hline (by simp [hmem]), htab⟩

theorem not_mem_of_mem_endedSpineLines {score : List Char} {column : Nat} {token : List Char}
    (h : token ∈ columnTokens (endedSpineLines score) column) : '\n' ∉ token ∧ '\t' ∉ token :=
  not_mem_of_mem_columnTokens
    (fun line hline => newline_not_mem_of_mem_spineLines line (List.mem_of_mem_take hline)) h

/-- The text of a column of a score. -/
def columnText (score : List Char) (column : Nat) : List Char :=
  voice ((spineLines score).map tokens) column

/-- The text of a column of a score, up to the last newline of the score. -/
def endedColumnText (score : List Char) (column : Nat) : List Char :=
  voice ((endedSpineLines score).map tokens) column

theorem columnText_eq_terminatedText (score : List Char) (column : Nat) :
    columnText score column = terminatedText (columnTokens (spineLines score) column) :=
  voice_eq_terminatedText _ column

theorem endedColumnText_eq_terminatedText (score : List Char) (column : Nat) :
    endedColumnText score column = terminatedText (columnTokens (endedSpineLines score) column) :=
  voice_eq_terminatedText _ column

theorem tab_not_mem_voice (lines : List (List Char)) (column : Nat) :
    '\t' ∉ voice (lines.map tokens) column := by
  rw [voice_eq_terminatedText]
  intro h
  obtain ⟨token, htoken, h⟩ := List.mem_flatMap.mp h
  obtain ⟨line, -, hline⟩ := List.mem_filterMap.mp htoken
  obtain ⟨htab, -⟩ := exists_of_getElem?_tokens hline
  simp [htab] at h

/-- Lines that hold something do not go on where nothing is left but lines that hold nothing. -/
private theorem exists_append_of_nil_lines {first part rest extra : List (List Char)}
    (h : lines ++ extra = first ++ (part ++ rest)) (hextra : ∀ line ∈ extra, line = [])
    (hne : part ≠ []) (hpart : ∀ line ∈ part, line ≠ []) :
    ∃ more, lines = first ++ (part ++ more) := by
  rw [← List.append_assoc] at h
  rcases List.append_eq_append_iff.mp h with ⟨beyond, hbeyond, rfl⟩ | ⟨beyond, rfl, -⟩
  · -- The last line would be one of those that hold nothing.
    rcases List.eq_nil_or_concat beyond with rfl | ⟨before, line, rfl⟩
    · exact ⟨[], by simpa using hbeyond.symm⟩
    · obtain ⟨front, last, rfl⟩ := (List.eq_nil_or_concat part).resolve_left hne
      obtain rfl : last = line := by simpa using congrArg List.getLast? hbeyond
      exact absurd (hextra last (by simp)) (hpart last (by simp))
  · exact ⟨beyond, List.append_assoc ..⟩

/-- Where a newline ends a score, lines of a column that hold something are ended as well. -/
theorem exists_endedColumnText {score before after : List Char} {part : List (List Char)}
    {column : Nat} (hlast : score.getLast? = some '\n')
    (htext : columnText score column = before ++ (terminatedText part ++ after))
    (hbefore : lineStartAfter true before = true)
    (hpart : ∀ line ∈ part, line ≠ [] ∧ '\n' ∉ line) (hne : part ≠ []) :
    ∃ more, endedColumnText score column = before ++ (terminatedText part ++ more) := by
  obtain ⟨rest, hspine, hrest⟩ := exists_spineLines_eq score
  have hnewline : ∀ token ∈ columnTokens (spineLines score) column, '\n' ∉ token :=
    fun _ htoken => (not_mem_of_mem_columnTokens newline_not_mem_of_mem_spineLines htoken).1
  rw [columnText_eq_terminatedText] at htext
  obtain ⟨first, others, hsplit, rfl⟩ := exists_eq_append_of_terminatedText hnewline
    (fun line hline => (hpart line hline).2) hbefore htext
  -- What is not ended is a line that holds nothing, and so is its token.
  have hextra : ∀ token ∈ columnTokens rest column, token = [] := by
    intro token htoken
    obtain ⟨line, hline, htoken⟩ := List.mem_filterMap.mp htoken
    obtain rfl := hrest hlast line hline
    obtain ⟨-, lead, behind, hnil, -⟩ := exists_of_getElem?_tokens htoken
    exact (List.append_eq_nil_iff.mp (List.append_eq_nil_iff.mp hnil.symm).2).1
  rw [hspine, columnTokens_append] at hsplit
  obtain ⟨more, hmore⟩ := exists_append_of_nil_lines hsplit hextra hne
    fun line hline => (hpart line hline).1
  refine ⟨terminatedText more, ?_⟩
  rw [endedColumnText_eq_terminatedText, hmore, terminatedText_append, terminatedText_append]

end MotifSearch.Kern
