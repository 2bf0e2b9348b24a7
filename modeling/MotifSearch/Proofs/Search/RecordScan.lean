import MotifSearch.Proofs.Record.Notes
import MotifSearch.Proofs.Record.Preferred
import MotifSearch.Proofs.Record.Succession
import MotifSearch.Proofs.Search.Spans

/-!
# Searching for notes record by record

A search for a sequence of notes can be done line by line. In each line the first column is looked
for that spells the first note. The further notes have to be spelled by the lines after it, except
for those without notes. The span of a match begins with the column or the tab before it, and it
ends with the line of the last note, where the search goes on.

## Main definitions

* `Record.column?` — where the first column of a line begins that spells a note
* `Record.scan` — the spans of a sequence of notes, found line by line

## Main results

* `locate_notes` — the search for a sequence of notes is the search by lines
-/

namespace MotifSearch

open Text (byteLength)

namespace Record

/-- Where the first column begins that spells a note, at the tab before it. The first one of the
columns begins at byte `offset`. -/
def laterColumn? (note : NotePattern) : (offset : Nat) → List (List Char) → Option Nat
  | _, [] => none
  | offset, token :: tokens =>
    if note.Spelled token then some offset
    else laterColumn? note (offset + byteLength ('\t' :: token)) tokens

/-- Where the first column of a line begins that spells a note. The line begins at byte `offset`,
and so does its first column, which has no tab before it. -/
def column? (note : NotePattern) (offset : Nat) (line : List Char) : Option Nat :=
  match Kern.tokens line with
  | [] => none
  | token :: tokens =>
    if note.Spelled token then some offset else laterColumn? note (offset + byteLength token) tokens

/-- The spans of a note and of those after it in lines that are ended by newlines, of which the
first one begins at byte `offset`. The first `skip` lines belong to a match that has been reported
already. -/
def scanLines (note : NotePattern) (notes : List NotePattern) :
    (skip offset : Nat) → List (List Char) → List Span
  | _, _, [] => []
  | skip + 1, offset, line :: lines =>
    scanLines note notes skip (offset + byteLength (line ++ ['\n'])) lines
  | 0, offset, line :: lines =>
    let next := offset + byteLength (line ++ ['\n'])
    match column? note offset line, linesTaken? notes lines with
    | some start, some count =>
      ⟨start, next + byteLength (terminatedText (lines.take count))⟩ ::
        scanLines note notes count next lines
    | _, _ => scanLines note notes 0 next lines

/-- The spans of a note and of those after it in a score. What follows the last newline takes no
part. -/
def scan (note : NotePattern) (notes : List NotePattern) (score : List Char) : List Span :=
  scanLines note notes 0 0 (Kern.lines score).dropLast

end Record

namespace Regex

open Record

/-- The last one of several records without notes. -/
private theorem exists_last_control {lines : List (List Char)} {count extra : Nat}
    (hle : count + (extra + 1) ≤ lines.length)
    (h : ∀ line ∈ (lines.drop count).take (extra + 1), isControl line = true) :
    ∃ line ∈ lines, isControl line = true ∧
      terminatedText (lines.take (count + (extra + 1))) =
        terminatedText (lines.take (count + extra)) ++ (line ++ ['\n']) := by
  have hlt : count + extra < lines.length := hle
  have hmem : lines[count + extra] ∈ (lines.drop count).take (extra + 1) := by
    rw [List.mem_take_iff_getElem]
    exact ⟨extra, by rw [List.length_drop]; omega, by simp⟩
  refine ⟨lines[count + extra], List.getElem_mem hlt, h _ hmem, ?_⟩
  rw [← Nat.add_assoc, ← List.take_append_getElem hlt, terminatedText_append]
  simp

variable {regex : Regex} {note : NotePattern} {notes : List NotePattern}
variable {atLineStart : Bool} {offset count : Nat}
variable {part word after tail : List Char} {lines : List (List Char)}

/-- What is left of a line and some lines after it, and then the other lines. -/
private theorem divide_lines (part : List Char) (lines : List (List Char)) (count : Nat)
    (tail : List Char) :
    part ++ '\n' :: (terminatedText lines ++ tail) =
      part ++ '\n' :: terminatedText (lines.take count) ++
        (terminatedText (lines.drop count) ++ tail) := by
  rw [← terminatedText_take_drop lines count tail, List.append_assoc, List.cons_append]

section Match

variable (hmeaning : regex.meaning = .sequence ((note :: notes).map NotePattern.meaning))
include hmeaning

/-- The lines that the notes take are matched where the first note begins. -/
theorem meaning_of_begins (hbegins : Begins note atLineStart part)
    (htaken : linesTaken? notes lines = some count) (hpart : '\n' ∉ part)
    (hlines : ∀ line ∈ lines, '\n' ∉ line) (after : List Char) :
    regex.meaning atLineStart (part ++ '\n' :: terminatedText (lines.take count)) after := by
  rw [hmeaning, sequence_meaning_cons]
  refine ⟨part ++ ['\n'], terminatedText (lines.take count), by simp,
    record_iff.mpr ⟨part, rfl, hpart, hbegins⟩, ?_⟩
  simpa using succession_of_linesTaken? htaken hlines after

/-- What is matched within a line begins where the first note does, and ends with the lines that the
notes take or with records without notes after them. -/
theorem begins_of_meaning (hpart : '\n' ∉ part) (hlines : ∀ line ∈ lines, '\n' ∉ line)
    (htail : '\n' ∉ tail)
    (htext : word ++ after = part ++ '\n' :: (terminatedText lines ++ tail))
    (h : regex.meaning atLineStart word after) :
    Begins note atLineStart part ∧
      ∃ count extra, linesTaken? notes lines = some count ∧ count + extra ≤ lines.length ∧
        word = part ++ '\n' :: terminatedText (lines.take (count + extra)) ∧
        ∀ line ∈ (lines.drop count).take extra, isControl line = true := by
  rw [hmeaning, sequence_meaning_cons] at h
  obtain ⟨_, right, rfl, hrecord, hright⟩ := h
  obtain ⟨line, rfl, hline, hbegins⟩ := record_iff.mp hrecord
  have hrest : line ++ '\n' :: (right ++ after) =
      part ++ '\n' :: (terminatedText lines ++ tail) := by
    simpa using htext
  obtain ⟨rfl, hafter⟩ := append_newline_inj hline hpart hrest
  have hsuccession : succession notes true right after := by simpa using hright
  obtain ⟨count, extra, htaken, hle, rfl, hextra⟩ :=
    linesTaken?_of_succession hlines htail hafter hsuccession
  exact ⟨hbegins, count, extra, htaken, hle, by simp, hextra⟩

/-- Every match takes a newline. -/
theorem newline_mem_of_meaning (h : regex.meaning atLineStart word after) : '\n' ∈ word := by
  rw [hmeaning, sequence_meaning_cons] at h
  obtain ⟨_, right, rfl, hrecord, -⟩ := h
  obtain ⟨line, rfl, -⟩ := record_iff.mp hrecord
  simp

/-- Nothing is found after the last newline. -/
theorem spansFrom_tail (htail : '\n' ∉ tail) : regex.spansFrom 0 atLineStart offset tail = [] := by
  induction tail generalizing atLineStart offset with
  | nil => rfl
  | cons c tail ih =>
    have hnone : regex.preferredLength atLineStart (c :: tail) = none := by
      rw [preferredLength_eq_none_iff]
      intro word after htext h
      exact htail (htext ▸ List.mem_append_left after (newline_mem_of_meaning hmeaning h))
    rw [spansFrom_of_no_match (by rw [hnone]; rfl) rfl]
    exact ih fun hmem => htail (List.mem_cons_of_mem c hmem)

section Line

variable (hpart : '\n' ∉ part) (hlines : ∀ line ∈ lines, '\n' ∉ line) (htail : '\n' ∉ tail)
include hpart hlines htail

/-- Nothing is matched where the first note does not begin, or where the others do not follow. -/
theorem preferredLength_of_not_begins
    (h : ¬ Begins note atLineStart part ∨ linesTaken? notes lines = none) :
    regex.preferredLength atLineStart (part ++ '\n' :: (terminatedText lines ++ tail)) = none := by
  rw [preferredLength_eq_none_iff]
  intro word after htext hword
  obtain ⟨hbegins, count, extra, htaken, -⟩ :=
    begins_of_meaning hmeaning hpart hlines htail htext.symm hword
  rcases h with h | h
  · exact h hbegins
  · rw [h] at htaken
    cases htaken

/-- The preferred match takes the lines that the notes take, and no record without notes after
them. -/
theorem preferredLength_of_begins (h : Leads matchedControl regex .between .between)
    (hbegins : Begins note atLineStart part) (htaken : linesTaken? notes lines = some count) :
    regex.preferredLength atLineStart (part ++ '\n' :: (terminatedText lines ++ tail)) =
      some (part ++ '\n' :: terminatedText (lines.take count)).length := by
  rcases hlength : regex.preferredLength atLineStart _ with _ | length
  · exact absurd (meaning_of_begins hmeaning hbegins htaken hpart hlines _)
      (preferredLength_eq_none_iff.mp hlength _ _ (divide_lines part lines count tail))
  obtain ⟨hle, hword⟩ := meaning_of_preferredLength hlength
  obtain ⟨-, _, extra, htaken', hextraLength, htake, hextra⟩ :=
    begins_of_meaning hmeaning hpart hlines htail (List.take_append_drop ..) hword
  obtain rfl := Option.some.inj (htaken.symm.trans htaken')
  cases extra with
  | zero =>
    rw [← List.length_take_of_le hle, htake]
    rfl
  | succ extra =>
    -- The match would end with a record without notes.
    exfalso
    obtain ⟨line, hline, hcontrol, hlast⟩ := exists_last_control hextraLength hextra
    have hbefore : lineStartAfter atLineStart
        (part ++ '\n' :: terminatedText (lines.take (count + extra))) = true := by
      simp
    have hwhole : part ++ '\n' :: (terminatedText lines ++ tail) =
        part ++ '\n' :: terminatedText (lines.take (count + extra)) ++ (line ++ ['\n'] ++
          (terminatedText (lines.drop (count + (extra + 1))) ++ tail)) := by
      rw [divide_lines part lines (count + (extra + 1)), hlast]
      simp
    rw [hwhole] at hlength
    refine preferredLength_ne_of_control h ((isControl_iff (hlines line hline)).mp hcontrol)
      (by simp) hbefore _ (hlength.trans ?_)
    rw [← List.length_take_of_le hle, htake, hlast]
    simp only [List.length_append, List.length_cons, Option.some.injEq]
    omega

end Line

variable (hlines : ∀ line ∈ lines, '\n' ∉ line) (htail : '\n' ∉ tail)
include hlines htail

/-- No match begins at the end of a line. -/
theorem spansFrom_newline :
    regex.spansFrom 0 atLineStart offset ('\n' :: (terminatedText lines ++ tail)) =
      regex.spansFrom 0 true (offset + byteLength ['\n']) (terminatedText lines ++ tail) := by
  have hbegins : ¬ Begins note atLineStart [] := by
    rintro (⟨-, h⟩ | ⟨rest, hrest, -⟩)
    · exact not_spelled_nil note h
    · cases hrest
  have hnone : regex.preferredLength atLineStart ('\n' :: (terminatedText lines ++ tail)) = none :=
    preferredLength_of_not_begins hmeaning List.not_mem_nil hlines htail (Or.inl hbegins)
  exact spansFrom_of_no_match (by rw [hnone]; rfl) rfl

/-- The search goes on one character further where nothing is matched. -/
theorem spansFrom_step {c : Char} (hpart : '\n' ∉ c :: part)
    (h : ¬ Begins note atLineStart (c :: part) ∨ linesTaken? notes lines = none) :
    regex.spansFrom 0 atLineStart offset (c :: part ++ '\n' :: (terminatedText lines ++ tail)) =
      regex.spansFrom 0 false (offset + c.utf8Size)
        (part ++ '\n' :: (terminatedText lines ++ tail)) := by
  have hnone := preferredLength_of_not_begins hmeaning hpart hlines htail h
  have hc : (c == '\n') = false := by
    rw [beq_eq_false_iff_ne]
    rintro rfl
    exact hpart List.mem_cons_self
  rw [spansFrom_of_no_match (by rw [hnone]; rfl) (List.cons_append ..), hc]

variable (hpart : '\n' ∉ part)
include hpart

/-- Nothing is found within a line if the further notes do not follow. -/
theorem spansFrom_of_not_taken (htaken : linesTaken? notes lines = none) :
    regex.spansFrom 0 atLineStart offset (part ++ '\n' :: (terminatedText lines ++ tail)) =
      regex.spansFrom 0 true (offset + byteLength (part ++ ['\n']))
        (terminatedText lines ++ tail) := by
  induction part generalizing atLineStart offset with
  | nil => exact spansFrom_newline hmeaning hlines htail
  | cons c part ih =>
    rw [spansFrom_step hmeaning hlines htail hpart (Or.inr htaken)]
    rw [List.cons_append, Text.byteLength_cons, ← Nat.add_assoc]
    exact ih fun hmem => hpart (List.mem_cons_of_mem c hmem)

/-- A match is found where the first note begins. -/
theorem spansFrom_of_begins (h : Leads matchedControl regex .between .between)
    (hbegins : Begins note atLineStart part) (htaken : linesTaken? notes lines = some count) :
    regex.spansFrom 0 atLineStart offset (part ++ '\n' :: (terminatedText lines ++ tail)) =
      ⟨offset, offset + byteLength (part ++ ['\n']) +
          byteLength (terminatedText (lines.take count))⟩ ::
        regex.spansFrom (terminatedText (lines.take count)).length true
          (offset + byteLength (part ++ ['\n'])) (terminatedText lines ++ tail) := by
  have hlength := preferredLength_of_begins hmeaning hpart hlines htail h hbegins htaken
  have hstop : byteLength (part ++ '\n' :: terminatedText (lines.take count)) =
      byteLength (part ++ ['\n']) + byteLength (terminatedText (lines.take count)) := by
    rw [← Text.byteLength_append]
    simp
  have hpassed : regex.spansFrom (terminatedText (lines.take count)).length true
      (offset + byteLength (part ++ ['\n'])) (terminatedText lines ++ tail) =
      regex.spansFrom 0 true (offset + byteLength (part ++ ['\n']) +
        byteLength (terminatedText (lines.take count)))
          (terminatedText (lines.drop count) ++ tail) := by
    -- The lines that the match takes are passed over, as many characters as they have.
    rw [← terminatedText_take_drop lines count tail]
    conv => lhs; rw [← Nat.add_zero (terminatedText _).length]
    rw [spansFrom_append, lineStartAfter_terminatedText]
  rw [divide_lines part lines count tail] at hlength ⊢
  rw [spansFrom_of_match hlength (by simp), hpassed, hstop, Nat.add_assoc]
  simp

end Match

section Scan

variable (hmeaning : regex.meaning = .sequence ((note :: notes).map NotePattern.meaning))
variable (h : Leads matchedControl regex .between .between)
variable (hlines : ∀ line ∈ lines, '\n' ∉ line) (htail : '\n' ∉ tail)
include hmeaning h hlines htail

/-- Among the columns after a tab, the first one is found that spells the first note. -/
theorem spansFrom_columns {others : List (List Char)}
    (hothers : ∀ token ∈ others, '\t' ∉ token ∧ '\n' ∉ token)
    (htaken : linesTaken? notes lines = some count) {next : Nat}
    (hnext : next = offset + byteLength (others.flatMap ('\t' :: ·) ++ ['\n'])) :
    regex.spansFrom 0 atLineStart offset
        (others.flatMap ('\t' :: ·) ++ '\n' :: (terminatedText lines ++ tail)) =
      match laterColumn? note offset others with
      | some start =>
        ⟨start, next + byteLength (terminatedText (lines.take count))⟩ ::
          regex.spansFrom (terminatedText (lines.take count)).length true next
            (terminatedText lines ++ tail)
      | none => regex.spansFrom 0 true next (terminatedText lines ++ tail) := by
  -- Column by column: the tab before a column begins a match, or else the search passes over it.
  induction others generalizing atLineStart offset with
  | nil =>
    rw [hnext]
    exact spansFrom_newline hmeaning hlines htail
  | cons token others ih =>
    obtain ⟨⟨htab, hnewline⟩, hothers'⟩ := List.forall_mem_cons.mp hothers
    have hpart : '\n' ∉ '\t' :: (token ++ others.flatMap ('\t' :: ·)) := by
      simpa [hnewline] using fun other hother => (hothers' other hother).2
    by_cases hspelled : note.Spelled token
    · have hbegins : Begins note atLineStart ('\t' :: (token ++ others.flatMap ('\t' :: ·))) :=
        Or.inr ⟨_, rfl, (spelled_append_tokens htab).mpr hspelled⟩
      rw [laterColumn?, if_pos hspelled, hnext]
      exact spansFrom_of_begins hmeaning hlines htail hpart h hbegins htaken
    · have hbegins : ¬ Begins note atLineStart ('\t' :: (token ++ others.flatMap ('\t' :: ·))) := by
        rintro (⟨-, hline⟩ | ⟨rest, hrest, hline⟩)
        · exact not_spelled_tab hline
        · obtain rfl := (List.cons.inj hrest).2
          exact hspelled ((spelled_append_tokens htab).mp hline)
      rw [laterColumn?, if_neg hspelled]
      rw [List.flatMap_cons, List.cons_append,
        spansFrom_step hmeaning hlines htail hpart (Or.inl hbegins), List.append_assoc,
        spansFrom_token h hnewline htab]
      have hoffset : offset + '\t'.utf8Size + byteLength token =
          offset + byteLength ('\t' :: token) := by
        rw [Text.byteLength_cons, Nat.add_assoc]
      rw [hoffset]
      refine ih hothers' ?_
      rw [hnext, List.flatMap_cons, List.append_assoc, Text.byteLength_append, Nat.add_assoc]

/-- The search passes over a first column that does not spell the first note. -/
theorem spansFrom_of_not_spelled {first : List Char} {others : List (List Char)}
    (htab : '\t' ∉ first) (hline : '\n' ∉ first ++ others.flatMap ('\t' :: ·))
    (hspelled : ¬ note.Spelled first) :
    ∃ atLineStart, regex.spansFrom 0 true offset
        (first ++ others.flatMap ('\t' :: ·) ++ '\n' :: (terminatedText lines ++ tail)) =
      regex.spansFrom 0 atLineStart (offset + byteLength first)
        (others.flatMap ('\t' :: ·) ++ '\n' :: (terminatedText lines ++ tail)) := by
  cases first with
  | nil => exact ⟨true, rfl⟩
  | cons c first =>
    refine ⟨false, ?_⟩
    have hbegins : ¬ Begins note true (c :: (first ++ others.flatMap ('\t' :: ·))) := by
      rintro (⟨-, hwhole⟩ | ⟨rest, hrest, -⟩)
      · rw [← List.cons_append, spelled_append_tokens htab] at hwhole
        exact hspelled hwhole
      · exact htab ((List.cons.inj hrest).1 ▸ List.mem_cons_self)
    rw [List.mem_cons, not_or] at htab
    have hfirst : '\n' ∉ first := fun hmem => hline (by simp [hmem])
    rw [List.cons_append] at hline ⊢
    rw [spansFrom_step hmeaning hlines htail hline (Or.inl hbegins), List.append_assoc,
      spansFrom_token h hfirst htab.2, Text.byteLength_cons, Nat.add_assoc]

/-- In a line the first column is found that spells the first note, if the further notes follow. -/
theorem spansFrom_record {line : List Char} (hline : '\n' ∉ line) :
    regex.spansFrom 0 true offset (line ++ '\n' :: (terminatedText lines ++ tail)) =
      match column? note offset line, linesTaken? notes lines with
      | some start, some count =>
        ⟨start, offset + byteLength (line ++ ['\n']) +
            byteLength (terminatedText (lines.take count))⟩ ::
          regex.spansFrom (terminatedText (lines.take count)).length true
            (offset + byteLength (line ++ ['\n'])) (terminatedText lines ++ tail)
      | _, _ => regex.spansFrom 0 true (offset + byteLength (line ++ ['\n']))
          (terminatedText lines ++ tail) := by
  -- Whether the further notes follow does not depend on the column.
  cases htaken : linesTaken? notes lines with
  | none =>
    rw [spansFrom_of_not_taken hmeaning hlines htail hline htaken]
    cases column? note offset line <;> rfl
  | some count =>
    obtain ⟨first, others, htokens, rfl, htab⟩ := exists_tokens line
    obtain ⟨hfirst, hothers⟩ := List.forall_mem_cons.mp htab
    by_cases hspelled : note.Spelled first
    · have hcolumn : column? note offset (first ++ others.flatMap ('\t' :: ·)) = some offset := by
        rw [column?, htokens]
        exact if_pos hspelled
      have hbegins : Begins note true (first ++ others.flatMap ('\t' :: ·)) :=
        Or.inl ⟨rfl, (spelled_append_tokens hfirst).mpr hspelled⟩
      rw [hcolumn]
      exact spansFrom_of_begins hmeaning hlines htail hline h hbegins htaken
    · have hcolumn : column? note offset (first ++ others.flatMap ('\t' :: ·)) =
          laterColumn? note (offset + byteLength first) others := by
        rw [column?, htokens]
        exact if_neg hspelled
      have hwithin : ∀ token ∈ others, '\t' ∉ token ∧ '\n' ∉ token := by
        intro token htoken
        refine ⟨hothers token htoken, fun hmem => hline ?_⟩
        exact List.mem_append_right _ (List.mem_flatMap.mpr ⟨token, htoken, by simp [hmem]⟩)
      obtain ⟨atLineStart, hpassed⟩ :=
        spansFrom_of_not_spelled hmeaning h hlines htail hfirst hline hspelled
      rw [hcolumn, hpassed, spansFrom_columns hmeaning h hlines htail hwithin htaken ?_]
      · cases laterColumn? note (offset + byteLength first) others <;> rfl
      · rw [List.append_assoc, Text.byteLength_append first, Nat.add_assoc]

/-- The search in a score is the search by lines. -/
theorem spansFrom_eq_scanLines (skip offset : Nat) :
    regex.spansFrom (terminatedText (lines.take skip)).length true offset
        (terminatedText lines ++ tail) = scanLines note notes skip offset lines := by
  induction lines generalizing skip offset with
  | nil =>
    rw [List.take_nil]
    cases skip <;> exact spansFrom_tail hmeaning htail
  | cons line lines ih =>
    obtain ⟨hline, hlines⟩ := List.forall_mem_cons.mp hlines
    cases skip with
    | succ skip =>
      -- The line is part of a match that has been reported.
      have hlength : (terminatedText ((line :: lines).take (skip + 1))).length =
          (line ++ ['\n']).length + (terminatedText (lines.take skip)).length := by
        rw [List.take_succ_cons, ← List.length_append]
        simp
      have htext : terminatedText (line :: lines) ++ tail =
          line ++ ['\n'] ++ (terminatedText lines ++ tail) := by
        simp
      have hstart : lineStartAfter true (line ++ ['\n']) = true := by simp
      rw [hlength, htext, spansFrom_append, hstart, scanLines]
      exact ih hlines skip _
    | zero =>
      have hzero := ih hlines 0
      rw [terminatedText_cons, List.append_assoc, List.cons_append, List.take_zero, scanLines]
      refine (spansFrom_record hmeaning h hlines htail hline).trans ?_
      cases column? note offset line with
      | none => exact hzero _
      | some start =>
        cases linesTaken? notes lines with
        | none => exact hzero _
        | some count => exact congrArg _ (ih hlines count _)

end Scan

/-- A sequence counts for one level of nesting, whatever its length. -/
theorem depth_concat_le {items : List Regex} {limit : Nat}
    (h : ∀ item ∈ items, item.depth ≤ limit) : (concat items).depth ≤ limit + 1 := by
  induction items with
  | nil => exact Nat.zero_le _
  | cons item items ih =>
    obtain ⟨hitem, hitems⟩ := List.forall_mem_cons.mp h
    cases items with
    | nil => exact Nat.le_succ_of_le hitem
    | cons next items =>
      -- The rest of the sequence adds a level only if it is no sequence itself.
      have hrest : (if (concat (next :: items)).isCat then (concat (next :: items)).depth
          else (concat (next :: items)).depth + 1) ≤ limit + 1 := by
        cases items with
        | nil =>
          have hnext := hitems next List.mem_cons_self
          rw [concat_singleton]
          split <;> omega
        | cons other items => exact ih hitems
      rw [concat_cons_cons, depth]
      exact Nat.max_le.mpr ⟨Nat.succ_le_succ hitem, hrest⟩

end Regex

/-- A sequence of notes is the items of its notes. -/
theorem Pattern.syntaxTree_notes (notes : List NotePattern) :
    (sequence (notes.map note)).syntaxTree = Regex.concat (notes.flatMap NotePattern.items) := by
  have hpieces : sequencePieces (notes.map note) = (notes.flatMap NotePattern.items).map .item := by
    induction notes with
    | nil => rfl
    | cons spec notes ih =>
      rw [List.map_cons, sequencePieces, ih, pieces, List.flatMap_cons, List.map_append]
  rw [syntaxTree, pieces, hpieces, Piece.tree, Piece.branches_map_item]
  rfl

theorem NotePattern.depth_le_of_mem_items (note : NotePattern) :
    ∀ item ∈ note.items, item.depth ≤ 5 := by
  have hplain : ∀ (text : List Char), ∀ item ∈ text.map Regex.plain, item.depth ≤ 5 := by
    intro text item hitem
    obtain ⟨c, -, rfl⟩ := List.mem_map.mp hitem
    exact Nat.zero_le 5
  have hduration : ∀ item ∈ note.durationItems, item.depth ≤ 5 := by
    obtain ⟨pitch, _ | duration⟩ := note
    · exact (by decide : ∀ item ∈ [Record.digitsItem, Record.dotsItem], item.depth ≤ 5)
    · exact hplain _
  have haccidental : ∀ item ∈ [Record.accidentalItem], item.depth ≤ 5 := by decide
  have hpitch : ∀ item ∈ note.pitchItems, item.depth ≤ 5 := by
    obtain ⟨_ | ⟨letter, octave, _ | accidental⟩, duration⟩ := note
    · exact List.forall_mem_cons.mpr ⟨by decide, haccidental⟩
    · exact List.forall_mem_append.mpr ⟨hplain _, haccidental⟩
    · exact List.forall_mem_append.mpr ⟨hplain _, hplain _⟩
  have hstart : ∀ item ∈ [Record.startItem, Record.marksItem], item.depth ≤ 5 := by decide
  have hrest : ∀ item ∈ [Record.restItem, .plain '\n', Record.skipItem], item.depth ≤ 5 := by
    decide
  rw [items]
  exact List.forall_mem_append.mpr ⟨List.forall_mem_append.mpr
    ⟨List.forall_mem_append.mpr ⟨hstart, hduration⟩, hpitch⟩, hrest⟩

theorem itemsMeaning_notes (notes : List NotePattern) :
    Regex.itemsMeaning (notes.flatMap NotePattern.items) =
      .sequence (notes.map NotePattern.meaning) := by
  induction notes with
  | nil => rfl
  | cons note notes ih =>
    rw [List.flatMap_cons, Regex.itemsMeaning_append, ih, note.meaning_items, List.map_cons,
      Meaning.sequence_cons]

/-- The search for a sequence of notes is the search by lines: it finds one note after the other in
columns that spell them. -/
theorem locate_notes (note : NotePattern) (notes : List NotePattern) (score : List Char) :
    locate score (Pattern.sequence ((note :: notes).map .note)).compile.expression =
      .ok (Record.scan note notes score) := by
  have hmeaning : (Pattern.sequence ((note :: notes).map .note)).syntaxTree.factored.meaning =
      .sequence ((note :: notes).map NotePattern.meaning) := by
    rw [Regex.meaning_factored, Pattern.syntaxTree_notes, Regex.meaning_concat]
    exact itemsMeaning_notes (note :: notes)
  have hdepth : (Pattern.sequence ((note :: notes).map .note)).syntaxTree.depth ≤
      Regex.depthLimit := by
    rw [Pattern.syntaxTree_notes]
    refine Nat.le_trans (Regex.depth_concat_le fun item hitem => ?_) (by decide : 5 + 1 ≤ _)
    obtain ⟨spec, -, hspec⟩ := List.mem_flatMap.mp hitem
    exact spec.depth_le_of_mem_items item hspec
  obtain ⟨tail, hscore, htail, hlines⟩ := Record.exists_terminatedText score
  have hscan := Regex.spansFrom_eq_scanLines hmeaning (Pattern.leads_factored _) hlines htail 0 0
  rw [locate_compile, if_pos hdepth, Record.scan, ← hscan, ← hscore]
  rfl

example : Record.scan ⟨.any, .any⟩ [⟨.any, .any⟩] "=1\t4d\n!x\n4e\n".toList = [⟨2, 12⟩] := by
  decide +kernel

end MotifSearch
