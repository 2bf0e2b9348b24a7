import MotifSearch.Proofs.Pattern.Reading
import MotifSearch.Proofs.Record.LookaheadMoves
import MotifSearch.Proofs.Record.Notes
import MotifSearch.Proofs.Search.Spans

/-!
# Searching with guards that look ahead

The guard of a note reads the first character of what it guards, because the written syntax cannot
look ahead. Nothing else depends on this: where in every note the guard is replaced by one that
looks ahead and then reads the rest of the line, a search finds the same spans in every score.

## Main results

* `NotePattern.map_lookingAhead_items` — a note whose guard looks ahead
* `locate_eq_lookingAhead` — a search finds what it finds with guards that look ahead
-/

namespace MotifSearch

open Record (startItem marksItem restItem skipItem aheadItems)

section Note

theorem lookingAhead_durationItems (note : NotePattern) :
    note.durationItems.map Regex.lookingAhead = note.durationItems := by
  unfold NotePattern.durationItems
  split
  · rfl
  · rw [DottedDuration.items, List.map_map]
    rfl

theorem lookingAhead_pitchItems (note : NotePattern) :
    note.pitchItems.map Regex.lookingAhead = note.pitchItems := by
  unfold NotePattern.pitchItems
  split
  · rfl
  · next pitch =>
    rw [PitchPattern.items, List.map_append, List.map_map]
    congr 1
    unfold accidentalItems
    split
    · rfl
    · rw [List.map_map]
      rfl

/-- The items of a note whose guard looks ahead: nothing else is different. -/
theorem NotePattern.map_lookingAhead_items (note : NotePattern) :
    note.items.map Regex.lookingAhead =
      [startItem, marksItem] ++ note.durationItems ++ note.pitchItems ++
        [.concat aheadItems, .plain '\n', skipItem] := by
  rw [items, List.map_append, List.map_append, List.map_append, lookingAhead_durationItems,
    lookingAhead_pitchItems]
  rfl

end Note

/-- The spans of an expression that leads from record to record are those that are found with
guards that look ahead. -/
theorem Regex.findAll_lookingAhead {regex : Regex}
    (h : Leads Record.controlItem regex .between .between) (score : List Char) :
    regex.lookingAhead.findAll score = regex.findAll score := by
  rw [findAll_eq_spansFrom, findAll_eq_spansFrom, h.factored_lookingAhead]
  exact spansFrom_congr h.factored.preferredLength_guarded

/-- A search for a pattern finds what it finds where the guards of all notes look ahead. -/
theorem locate_eq_lookingAhead (pattern : Pattern) (score : List Char) :
    locate score pattern.compile.expression =
      (readExpression pattern.compile.expression).map fun regex =>
        regex.lookingAhead.findAll score := by
  rw [locate]
  cases hread : readExpression pattern.compile.expression with
  | error cause => rfl
  | ok regex =>
    obtain rfl := pattern.eq_syntaxTree_of_read hread
    exact congrArg Except.ok (Regex.findAll_lookingAhead pattern.leads_syntaxTree score).symm

end MotifSearch
