import MotifSearch.Corpus.Basic
import MotifSearch.Proofs.Kern.LineSpans
import MotifSearch.Proofs.Kern.SpineLines
import MotifSearch.Proofs.Pattern.Carried
import MotifSearch.Proofs.Search.Found

/-!
# Matches in voices and in the score

A voice has the tokens of one column of the score, each as a line of its own. A match in the first
column takes the lines of the score that begin with its tokens. A match of a single token of another
column begins with the tab before the token and takes the rest of the line. What goes on beyond the
first line does so at the beginning of the next line, which is in the first column. The score itself
need not have a newline after its last line, which every voice has.

## Main definitions

* `CountsIn` — something that is found in a column counts
* `OnlyInColumn` — what is found in a column need not be found in the score

## Main results

* `Pattern.findAll_ne_nil_of_firstColumn` — what is preferred in the first column is found in the
  score
* `Pattern.findAll_ne_nil_of_token` — so is what is preferred in a token of another column
* `locate_ne_nil_or_onlyInColumn` — where something counts, something is found in the score, unless
  all that counts is of that kind
-/

namespace MotifSearch

open Record (terminatedText terminatedText_append terminatedText_cons)
open Kern (tokens columnTokens columnText endedColumnText endedSpineLines Shortened terminator)

namespace Pattern

variable {pattern : Pattern} {before word after text : List Char}

/-- Where a pattern prefers something to the empty match, something is found. -/
theorem findAll_ne_nil
    (h : pattern.syntaxTree.preferring (lineStartAfter true before) word after) :
    pattern.syntaxTree.findAll (before ++ (word ++ after)) ≠ [] :=
  (Regex.findAll_ne_nil_iff pattern.settled_syntaxTree).mpr ⟨before, word, after, rfl, h⟩

/-- Where something is found in a text without tabs, the pattern prefers some lines of it. -/
theorem exists_preferring_of_findAll_ne_nil (h : pattern.syntaxTree.findAll text ≠ [])
    (htab : '\t' ∉ text) :
    ∃ before part after, text = before ++ (terminatedText part ++ after) ∧
      lineStartAfter true before = true ∧
      pattern.syntaxTree.preferring true (terminatedText part) after ∧
      part ≠ [] ∧ ∀ line ∈ part, line ≠ [] ∧ '\n' ∉ line := by
  have hsettled := pattern.settled_syntaxTree
  obtain ⟨span, hspan⟩ := List.exists_mem_of_ne_nil _ h
  rw [Regex.findAll_eq_spansFrom] at hspan
  obtain ⟨before, word, after, rfl, -, hne, hlength⟩ :=
    Regex.exists_preferred_of_mem_spansFrom hspan
  have hpreferring := Regex.preferring_of_preferredLength hsettled.factored hne hlength
  rw [Regex.preferring_factored hsettled] at hpreferring
  have htakes := takesLines_of_preferredLength hlength
  have hstart : lineStartAfter true before = true := by
    refine (htakes.start hne).resolve_right fun htabs => htab ?_
    exact List.mem_append_right _ (List.mem_append_left _ (List.mem_of_head? htabs))
  rw [hstart] at hpreferring
  obtain ⟨part, rfl, hpart⟩ := htakes.lines
  exact ⟨before, part, after, rfl, hstart, hpreferring, fun hnil => hne (by rw [hnil]; rfl), hpart⟩

end Pattern

section Columns

variable {lead token other rest whole score : List Char} {pattern : Pattern} {column : Nat}

/-- A token spells the same notes in its line, also where the line has been cut off after it. -/
theorem Kern.Shortened.exists_spelled
    (h : Shortened terminator (lead ++ (token ++ rest)) whole)
    (hrest : ∀ c ∈ rest.head?, c = '\t') :
    ∃ more, whole = lead ++ (token ++ more) ∧
      ∀ note : NotePattern, note.Spelled token → note.Spelled (token ++ more) := by
  obtain ⟨extra, rfl, hextra⟩ := h
  refine ⟨rest ++ extra, by simp, fun note hnote => NotePattern.spelled_append hnote ?_⟩
  intro c hc
  cases rest with
  | cons d rest => exact Or.inl (hrest c hc)
  | nil =>
    rcases hextra with rfl | hsuffix
    · cases hc
    · -- The line ends with a terminator, and so does its last token if it spells a note.
      rw [List.append_nil] at hsuffix
      have hlength : terminator.length ≤ token.length := Record.two_le_length_of_spelled hnote
      have hterminator := List.suffix_of_suffix_length_le hsuffix (List.suffix_append lead token)
        hlength
      exact Or.inr (hterminator.subset (by decide))

/-- A token without tabs begins the notes that it spells. -/
private theorem begins_of_token (htab : '\t' ∉ token)
    (h : ∀ note : NotePattern, note.Spelled token → note.Spelled other) {note : NotePattern}
    (hbegins : Record.Begins note true token) : note.Spelled other := by
  rcases hbegins with ⟨-, hspelled⟩ | ⟨behind, rfl, -⟩
  · exact h note hspelled
  · exact absurd List.mem_cons_self htab

theorem Record.isControl_append (h : Record.isControl token = true) :
    Record.isControl (token ++ rest) = true := by
  cases token with
  | nil => cases h
  | cons c token => exact h

/-- A match can be carried over from the first token of a line to the line. -/
private theorem Kern.Shortened.carriesTo (h : Shortened terminator (token ++ rest) whole)
    (htab : '\t' ∉ token) (hrest : ∀ c ∈ rest.head?, c = '\t') (hnewline : '\n' ∉ whole) :
    Record.CarriesTo token whole := by
  have hshort : Shortened terminator ([] ++ (token ++ rest)) whole := h
  obtain ⟨more, rfl, hspelled⟩ := hshort.exists_spelled hrest
  exact ⟨hnewline, fun note hbegins => Or.inl ⟨rfl, begins_of_token htab hspelled hbegins⟩,
    Record.isControl_append⟩

/-- The tokens of the first column of some lines, each of them paired with the line that it can be
carried over to. -/
private theorem exists_firstColumn {pairs : List (List Char × List Char)}
    (h : ∀ pair ∈ pairs, '\n' ∉ pair.2 ∧ Shortened terminator pair.1 pair.2) :
    ∃ carried : List (List Char × List Char), carried.map Prod.snd = pairs.map Prod.snd ∧
      columnTokens (pairs.map Prod.fst) 0 = carried.map Prod.fst ∧
      ∀ pair ∈ carried, Record.CarriesTo pair.1 pair.2 := by
  induction pairs with
  | nil => exact ⟨[], rfl, rfl, by simp⟩
  | cons pair pairs ih =>
    obtain ⟨⟨hnewline, hshort⟩, hpairs⟩ := List.forall_mem_cons.mp h
    obtain ⟨carried, hlines, htokens, hcarried⟩ := ih hpairs
    obtain ⟨token, others, hsplit, -⟩ := Record.exists_tokens pair.1
    have hzero : (tokens pair.1)[0]? = some token := by rw [hsplit]; rfl
    obtain ⟨htab, lead, rest, hline, hrest, hlead, -⟩ := Kern.exists_of_getElem?_tokens hzero
    obtain rfl := hlead rfl
    rw [hline, List.nil_append] at hshort
    refine ⟨(token, pair.2) :: carried, by simp [hlines], ?_,
      List.forall_mem_cons.mpr ⟨hshort.carriesTo htab hrest hnewline, hcarried⟩⟩
    rw [columnTokens] at htokens ⊢
    simp only [List.map_cons, List.filterMap_cons, hzero, htokens]

/-- What is preferred to the empty match in the first column is found in the score. -/
theorem Pattern.findAll_ne_nil_of_firstColumn {before word after behind : List Char}
    (htext : endedColumnText score 0 = before ++ (word ++ behind))
    (hbefore : lineStartAfter true before = true)
    (hword : pattern.syntaxTree.preferring true word after) :
    pattern.syntaxTree.findAll score ≠ [] := by
  obtain ⟨part, rfl, hpart, htransfer⟩ := pattern.transfers_preferring word after hword
  rw [Kern.endedColumnText_eq_terminatedText] at htext
  obtain ⟨first, others, hsplit, -⟩ := Kern.exists_eq_append_of_terminatedText
    (fun token htoken => (Kern.not_mem_of_mem_endedSpineLines htoken).1) hpart hbefore htext
  obtain ⟨head, pairs, tail, hended, hscore, hpairs⟩ := Kern.exists_endedSpineLines score
  obtain ⟨carried, hlines, htokens, hcarried⟩ := exists_firstColumn hpairs
  rw [hended, htokens] at hsplit
  -- The tokens that the match takes, each with the line of the score that begins with it.
  obtain ⟨left, middle, rfl, -, hmiddle⟩ := List.map_eq_append_iff.mp hsplit
  obtain ⟨taken, right, rfl, htaken, -⟩ := List.map_eq_append_iff.mp hmiddle
  have hcarries : Record.Carries true taken := .of_forall fun pair hpair =>
    hcarried pair (List.mem_append_right left (List.mem_append_left right hpair))
  have hfound := htransfer taken true (terminatedText (right.map Prod.snd) ++ tail) htaken hcarries
  have hsame : score = terminatedText (head ++ left.map Prod.snd) ++
      (terminatedText (taken.map Prod.snd) ++
        (terminatedText (right.map Prod.snd) ++ tail)) := by
    rw [hscore, ← hlines]
    simp [terminatedText_append]
  rw [hsame]
  apply findAll_ne_nil
  rwa [Record.lineStartAfter_terminatedText]

/-- What is preferred to the empty match in a single token of another column is found in the score,
where it begins with the tab before the token. -/
theorem Pattern.findAll_ne_nil_of_token {after : List Char} (hcolumn : column ≠ 0)
    (htoken : token ∈ columnTokens (endedSpineLines score) column)
    (hword : pattern.syntaxTree.preferring true (token ++ ['\n']) after) :
    pattern.syntaxTree.findAll score ≠ [] := by
  obtain ⟨head, pairs, tail, hended, hscore, hpairs⟩ := Kern.exists_endedSpineLines score
  rw [hended] at htoken
  obtain ⟨line, hline, hget⟩ := List.mem_filterMap.mp htoken
  obtain ⟨pair, hpair, rfl⟩ := List.mem_map.mp hline
  obtain ⟨hnewline, hshort⟩ := hpairs pair hpair
  obtain ⟨htab, lead, rest, hsplit, hrest, -, hlead⟩ := Kern.exists_of_getElem?_tokens hget
  obtain ⟨before, rfl⟩ := hlead hcolumn
  rw [hsplit] at hshort
  obtain ⟨more, hwhole, hspelled⟩ := hshort.exists_spelled hrest
  obtain ⟨left, right, rfl⟩ := List.append_of_mem hpair
  rw [hwhole] at hnewline
  have htabbed : '\n' ∉ '\t' :: (token ++ more) := fun hmem => hnewline (by simpa using Or.inr hmem)
  -- The word is the one line of the token, and the tab and the rest of the line take its place.
  obtain ⟨lines, hlines, hall, htransfer⟩ := pattern.transfers_preferring _ after hword
  obtain rfl := Record.eq_singleton_of_terminatedText (fun hmem => htabbed (by simp [hmem])) hall
    hlines
  have hcarries : ∀ atLineStart, Record.Carries atLineStart [(token, '\t' :: (token ++ more))] :=
    fun _ => .singleton htabbed fun note hbegins =>
      Or.inr ⟨_, rfl, begins_of_token htab hspelled hbegins⟩
  have hfound := htransfer _
    (lineStartAfter true (terminatedText (head ++ left.map Prod.snd) ++ before))
    (terminatedText (right.map Prod.snd) ++ tail) rfl (hcarries _)
  have hsame : score = terminatedText (head ++ left.map Prod.snd) ++ before ++
      (terminatedText ['\t' :: (token ++ more)] ++
        (terminatedText (right.map Prod.snd) ++ tail)) := by
    rw [hscore]
    simp [hwhole, terminatedText_append]
  rw [hsame]
  exact findAll_ne_nil hfound

end Columns

namespace Pattern

variable {pattern : Pattern} {score token : List Char} {column : Nat}

/-- What is found in the first column up to the last newline of a score is found in the score. -/
theorem findAll_ne_nil_of_endedColumnText
    (h : pattern.syntaxTree.findAll (endedColumnText score 0) ≠ []) :
    pattern.syntaxTree.findAll score ≠ [] := by
  obtain ⟨before, part, after, htext, hbefore, hpreferring, -, -⟩ :=
    exists_preferring_of_findAll_ne_nil h (Kern.tab_not_mem_voice _ _)
  exact findAll_ne_nil_of_firstColumn htext hbefore hpreferring

/-- What is found in the first column is found in the score, if a newline ends the score. -/
theorem findAll_ne_nil_of_columnText (hlast : score.getLast? = some '\n')
    (h : pattern.syntaxTree.findAll (columnText score 0) ≠ []) :
    pattern.syntaxTree.findAll score ≠ [] := by
  obtain ⟨before, part, after, htext, hbefore, hpreferring, hne, hpart⟩ :=
    exists_preferring_of_findAll_ne_nil h (Kern.tab_not_mem_voice _ _)
  obtain ⟨more, hmore⟩ := Kern.exists_endedColumnText hlast htext hbefore hpart hne
  exact findAll_ne_nil_of_firstColumn hmore hbefore hpreferring

/-- What is found in a text of one line takes that line. -/
private theorem exists_preferring_of_line (hnewline : '\n' ∉ token) (htab : '\t' ∉ token)
    (h : pattern.syntaxTree.findAll (token ++ ['\n']) ≠ []) :
    ∃ after, pattern.syntaxTree.preferring true (token ++ ['\n']) after := by
  obtain ⟨before, part, after, htext, hbefore, hpreferring, hne, hpart⟩ :=
    exists_preferring_of_findAll_ne_nil h (by simpa using htab)
  have hone : terminatedText [token] = before ++ (terminatedText part ++ after) := by
    simpa using htext
  obtain ⟨first, rest, hsplit, -⟩ := Kern.exists_eq_append_of_terminatedText
    (List.forall_mem_singleton.mpr hnewline) (fun line hline => (hpart line hline).2) hbefore hone
  -- The one line is in the part, which is not empty.
  obtain rfl : part = [token] := by
    cases first <;> cases part <;> simp_all
  exact ⟨after, by simpa using hpreferring⟩

/-- What is found in a token of a column other than the first one is found in the score, if a
newline of the score ends the line of the token. -/
theorem findAll_ne_nil_of_mem_columnTokens (hcolumn : column ≠ 0)
    (htoken : token ∈ columnTokens (endedSpineLines score) column)
    (h : pattern.syntaxTree.findAll (token ++ ['\n']) ≠ []) :
    pattern.syntaxTree.findAll score ≠ [] := by
  obtain ⟨hnewline, htab⟩ := Kern.not_mem_of_mem_endedSpineLines htoken
  obtain ⟨after, hline⟩ := exists_preferring_of_line hnewline htab h
  exact findAll_ne_nil_of_token hcolumn htoken hline

end Pattern

/-- Something that is found in a column of a score counts. -/
def CountsIn (regex : Regex) (score : List Char) (column : Nat) : Prop :=
  columnText score column ∈ Kern.voices score ∧ regex.findAll (columnText score column) ≠ []

/-- What is found in a column of a score need not be found in the score. -/
structure OnlyInColumn (regex : Regex) (score : List Char) (column : Nat) : Prop where
  /-- In the first column, nothing is found before the last line, and no newline ends that. -/
  unended : column = 0 →
    score.getLast? ≠ some '\n' ∧ regex.findAll (endedColumnText score column) = []
  /-- In another column, nothing is found in a single token whose line a newline ends: a match in
  the score goes on at the beginning of the next line, and not in the column. -/
  longer : column ≠ 0 → ∀ token ∈ columnTokens (endedSpineLines score) column,
    regex.findAll (token ++ ['\n']) = []

theorem exists_countsIn {score : Score} {regex : Regex}
    (h : 0 < score.countMatches regex .voices) : ∃ column, CountsIn regex score.kern column := by
  obtain ⟨span, hspan⟩ := List.exists_mem_of_length_pos h
  obtain ⟨text, htext, hspan⟩ := List.mem_flatMap.mp hspan
  obtain ⟨column, -, rfl⟩ := List.mem_map.mp (List.mem_filter.mp htext).1
  exact ⟨column, htext, List.ne_nil_of_mem hspan⟩

/-- Where nothing is found in the score, what is found in a column can only be found there. -/
theorem Pattern.onlyInColumn {pattern : Pattern} {score : List Char} {column : Nat}
    (hnil : pattern.syntaxTree.findAll score = [])
    (hcounts : CountsIn pattern.syntaxTree score column) :
    OnlyInColumn pattern.syntaxTree score column where
  unended hcolumn := by
    subst hcolumn
    refine ⟨fun hlast => findAll_ne_nil_of_columnText hlast hcounts.2 hnil, ?_⟩
    exact Decidable.not_not.mp fun hended => findAll_ne_nil_of_endedColumnText hended hnil
  longer hcolumn token htoken :=
    Decidable.not_not.mp fun hfound => findAll_ne_nil_of_mem_columnTokens hcolumn htoken hfound hnil

/-- Where a score counts as a hit because of its voices, something is found in the score as well,
unless all that counts can only be found in its column. -/
theorem locate_ne_nil_or_onlyInColumn {pattern : Pattern} {score : Score} {regex : Regex}
    (hread : readExpression pattern.compile.expression = .ok regex)
    (hcount : 0 < score.countMatches regex .voices) :
    (∃ spans, locate score.kern pattern.compile.expression = .ok spans ∧ spans ≠ []) ∨
      (∃ column, CountsIn regex score.kern column) ∧
        ∀ column, CountsIn regex score.kern column → OnlyInColumn regex score.kern column := by
  have hlocate : locate score.kern pattern.compile.expression = .ok (regex.findAll score.kern) := by
    rw [locate, hread]
    rfl
  obtain rfl := Pattern.eq_syntaxTree_of_read hread
  by_cases hspans : pattern.syntaxTree.findAll score.kern = []
  · exact Or.inr ⟨exists_countsIn hcount, fun _ => Pattern.onlyInColumn hspans⟩
  · exact Or.inl ⟨_, hlocate, hspans⟩

/-- A note in the second column is found in the score. -/
theorem locate_ne_nil_second_column :
    readExpression (Pattern.sequence [.quarterNote .c]).compile.expression =
        .ok (Pattern.sequence [.quarterNote .c]).syntaxTree ∧
      Score.countMatches ⟨0, [], "**kern\t**kern\n4e\t4c\n*-\t*-\n".toList⟩
        (Pattern.sequence [.quarterNote .c]).syntaxTree .voices = 1 ∧
      ∃ spans, locate "**kern\t**kern\n4e\t4c\n*-\t*-\n".toList
        (Pattern.sequence [.quarterNote .c]).compile.expression = .ok spans ∧ spans ≠ [] := by
  have hread : readExpression (Pattern.sequence [.quarterNote .c]).compile.expression =
      .ok (Pattern.sequence [.quarterNote .c]).syntaxTree := rfl
  have hcount : Score.countMatches ⟨0, [], "**kern\t**kern\n4e\t4c\n*-\t*-\n".toList⟩
      (Pattern.sequence [.quarterNote .c]).syntaxTree .voices = 1 := by decide +kernel
  refine ⟨hread, hcount, ?_⟩
  refine (locate_ne_nil_or_onlyInColumn hread (hcount ▸ Nat.one_pos)).resolve_right ?_
  rintro ⟨-, honly⟩
  have hcounts : CountsIn (Pattern.sequence [.quarterNote .c]).syntaxTree
      "**kern\t**kern\n4e\t4c\n*-\t*-\n".toList 1 := ⟨by decide +kernel, by decide +kernel⟩
  have hnil := (honly 1 hcounts).longer (by decide) "4c".toList (by decide +kernel)
  exact absurd hnil (by decide +kernel)

/-- Two notes that follow each other in the second column only, and a note without a newline after
it: both count, but nothing is found in the score. -/
theorem locate_nil_of_counted :
    (readExpression (Pattern.sequence [.quarterNote .c, .quarterNote .d]).compile.expression =
        .ok (Pattern.sequence [.quarterNote .c, .quarterNote .d]).syntaxTree ∧
      Score.countMatches ⟨0, [], "**kern\t**kern\n4e\t4c\n4e\t4d\n*-\t*-\n".toList⟩
        (Pattern.sequence [.quarterNote .c, .quarterNote .d]).syntaxTree .voices = 1 ∧
      locate "**kern\t**kern\n4e\t4c\n4e\t4d\n*-\t*-\n".toList
        (Pattern.sequence [.quarterNote .c, .quarterNote .d]).compile.expression = .ok []) ∧
    readExpression (Pattern.sequence [.quarterNote .c]).compile.expression =
        .ok (Pattern.sequence [.quarterNote .c]).syntaxTree ∧
      Score.countMatches ⟨0, [], "**kern\n4c".toList⟩
        (Pattern.sequence [.quarterNote .c]).syntaxTree .voices = 1 ∧
      locate "**kern\n4c".toList
        (Pattern.sequence [.quarterNote .c]).compile.expression = .ok [] := by
  refine ⟨⟨rfl, by decide +kernel, ?_⟩, rfl, by decide +kernel, ?_⟩ <;> rfl

end MotifSearch
