import MotifSearch.Proofs.Record.Insertion
import MotifSearch.Proofs.Record.Spelling
import MotifSearch.Proofs.Regex.Factoring

/-!
# What a note means

The expression of a note in terms of records: a record that spells the note in the column where the
match begins, and any number of records without notes after it.

## Main definitions

* `NotePattern.record` — a record spells a note in the column where a match begins
* `NotePattern.meaning` — such a record, and the records without notes after it

## Main results

* `itemsMeaning_items` — the items of a note mean what the note means
-/

namespace MotifSearch

open Spelling
open Regex (itemsMeaning itemsMeaning_nil itemsMeaning_cons itemsMeaning_singleton
  itemsMeaning_append)

namespace NotePattern

/-- A record from the column on in which it spells a note. Either the column is the first one, or
the match begins with the tab before it. -/
def record (note : NotePattern) : Meaning := fun atLineStart word _ =>
  ∃ lead line, word = lead ++ (line ++ ['\n']) ∧ (lead = [] ∧ atLineStart = true ∨ lead = ['\t']) ∧
    '\n' ∉ line ∧ note.Spelled line

end NotePattern

/-- Any number of records without notes. -/
def Record.skipped : Meaning := fun _ word _ =>
  ∃ lines : List (List Char), word = lines.flatten ∧ ∀ line ∈ lines, Record.IsControl line

/-- A record that spells a note, and any number of records without notes after it. -/
def NotePattern.meaning (note : NotePattern) : Meaning :=
  note.record.followedBy Record.skipped

/-! ### What the items of a note mean -/

/-- Words of some kind in any surroundings. -/
def Meaning.ofSpelling (spelling : Spelling) : Meaning := fun _ word _ => spelling word

namespace Meaning

theorem ofSpelling_followedBy (first second : Spelling) :
    (ofSpelling first).followedBy (ofSpelling second) = ofSpelling (first.andThen second) := rfl

theorem choice_iff {meanings : List Meaning} {atLineStart : Bool} {word after : List Char} :
    choice meanings atLineStart word after ↔
      ∃ meaning ∈ meanings, meaning atLineStart word after := by
  induction meanings with
  | nil => simp [never]
  | cons meaning meanings ih => simp [either, ih]

end Meaning

open Meaning (ofSpelling)

namespace Regex

theorem itemsMeaning_plain (text : List Char) :
    itemsMeaning (text.map plain) = ofSpelling (exactly text) := by
  induction text with
  | nil => rfl
  | cons c text ih =>
    rw [List.map_cons, itemsMeaning_cons, ih]
    ext atLineStart word after
    constructor
    · rintro ⟨left, right, rfl, ⟨d, hd, rfl⟩, rfl⟩
      rw [show d = c by simpa [CharSet.contains] using hd]
      rfl
    · rintro rfl
      exact ⟨[c], text, rfl, ⟨c, by simp [CharSet.contains], rfl⟩, rfl⟩

theorem iterated_chars (set : CharSet) :
    Meaning.Iterated (chars set).meaning = ofSpelling (someRun set.contains) := by
  ext atLineStart word after
  constructor
  · intro h
    induction h with
    | once h =>
      obtain ⟨c, hc, rfl⟩ := h
      exact ⟨by simp, by simp [hc]⟩
    | more hleft _ ih =>
      obtain ⟨c, hc, rfl⟩ := hleft
      exact ⟨by simp, run_cons.mpr ⟨hc, ih.2⟩⟩
  · -- Each character is an iteration, and the last one must not be followed by an empty one.
    rintro ⟨hne, hall⟩
    induction word generalizing atLineStart with
    | nil => exact absurd rfl hne
    | cons c word ih =>
      obtain ⟨hc, hword⟩ := run_cons.mp hall
      by_cases hnil : word = []
      · subst hnil
        exact .once ⟨c, hc, rfl⟩
      · exact .of_followedBy ⟨[c], word, rfl, ⟨c, hc, rfl⟩, Or.inr (ih _ hnil hword)⟩

theorem meaning_oneOrMore_chars (greedy : Bool) (set : CharSet) :
    (loop .oneOrMore greedy (chars set)).meaning = ofSpelling (someRun set.contains) :=
  iterated_chars set

theorem meaning_zeroOrMore_chars (greedy : Bool) (set : CharSet) :
    (loop .zeroOrMore greedy (chars set)).meaning = ofSpelling (Spelling.run set.contains) := by
  change Meaning.nothing.either (Meaning.Iterated (chars set).meaning) = _
  rw [iterated_chars]
  ext atLineStart word after
  constructor
  · rintro (rfl | ⟨-, hall⟩)
    · exact run_nil _
    · exact hall
  · intro hall
    by_cases hnil : word = []
    · exact Or.inl hnil
    · exact Or.inr ⟨hnil, hall⟩

end Regex

namespace Record

open Regex

theorem meaning_anyDuration :
    itemsMeaning [digitsItem, dotsItem] = ofSpelling anyDuration := by
  have hdigits : digits.contains = Char.isDigit := funext fun _ => CharSet.contains_digits
  rw [itemsMeaning_cons, itemsMeaning_singleton, digitsItem, dotsItem, meaning_oneOrMore_chars,
    plain, meaning_zeroOrMore_chars, hdigits, Meaning.ofSpelling_followedBy]
  rfl

theorem meaning_accidentalItem : accidentalItem.meaning = ofSpelling anyAccidental := by
  change ((loop .zeroOrMore true (plain '#')).meaning).either
    (((loop .zeroOrMore true (plain '-')).meaning).either (plain 'n').meaning) = _
  rw [plain, plain, plain, meaning_zeroOrMore_chars, meaning_zeroOrMore_chars]
  ext atLineStart word after
  have hnatural : (chars (.single 'n')).meaning atLineStart word after ↔ word = ['n'] := by
    simp [Regex.meaning, CharSet.contains]
  exact or_congr Iff.rfl (or_congr Iff.rfl hnatural)

theorem meaning_lettersItem : lettersItem.meaning = ofSpelling anyLetters := by
  change (alternatives _).meaning = _
  rw [meaning_alternatives (by simp [letters]), List.map_map]
  ext atLineStart word after
  rw [Meaning.choice_iff]
  constructor
  · rintro ⟨meaning, hmeaning, hword⟩
    obtain ⟨letter, hletter, rfl⟩ := List.mem_map.mp hmeaning
    refine ⟨letter, hletter, ?_⟩
    rwa [Function.comp_apply, plain, meaning_oneOrMore_chars] at hword
  · rintro ⟨letter, hletter, hword⟩
    refine ⟨_, List.mem_map_of_mem hletter, ?_⟩
    rwa [Function.comp_apply, plain, meaning_oneOrMore_chars]

theorem run_inLine {word : List Char} :
    Spelling.run CharSet.inLine.contains word ↔ '\n' ∉ word := by
  simp only [Spelling.run, CharSet.contains, bne_iff_ne]
  exact ⟨fun h hmem => h _ hmem rfl, fun h c hc heq => h (heq ▸ hc)⟩

theorem meaning_lineItem : lineItem.meaning = ofSpelling fun line => '\n' ∉ line := by
  have hline : lineItem.meaning = ofSpelling (Spelling.run CharSet.inLine.contains) :=
    meaning_zeroOrMore_chars true .inLine
  rw [hline]
  congr 1
  funext word
  exact propext run_inLine

theorem meaning_restItem :
    restItem.meaning = ofSpelling fun rest => '\n' ∉ rest ∧ pitchEnd rest := by
  change Meaning.nothing.either ((chars pitchEnds).meaning.followedBy lineItem.meaning) = _
  rw [meaning_lineItem]
  ext atLineStart word after
  constructor
  · rintro (rfl | ⟨_, line, rfl, ⟨c, hc, rfl⟩, hline⟩)
    · exact ⟨List.not_mem_nil, fun _ hc => nomatch hc⟩
    · refine ⟨?_, fun d hd => Option.some.inj hd ▸ hc⟩
      have hnewline : c ≠ '\n' := by
        rintro rfl
        cases hc
      exact List.not_mem_cons_of_ne_of_not_mem hnewline.symm hline
  · rintro ⟨hnewline, hend⟩
    cases word with
    | nil => exact Or.inl rfl
    | cons c line =>
      have hline : '\n' ∉ line := fun hmem => hnewline (List.mem_cons_of_mem c hmem)
      exact Or.inr ⟨[c], line, rfl, ⟨c, hend c rfl, rfl⟩, hline⟩

theorem meaning_controlItem : controlItem.meaning = fun _ word _ => IsControl word := by
  change (chars controls).meaning.followedBy (lineItem.meaning.followedBy (plain '\n').meaning) = _
  rw [meaning_lineItem]
  ext atLineStart word after
  constructor
  · rintro ⟨_, _, rfl, ⟨c, hc, rfl⟩, line, _, rfl, hline, d, hd, rfl⟩
    obtain rfl : d = '\n' := by simpa [CharSet.contains] using hd
    exact ⟨c, line, rfl, hc, hline⟩
  · rintro ⟨c, line, rfl, hc, hline⟩
    exact ⟨[c], line ++ ['\n'], rfl, ⟨c, hc, rfl⟩, line, ['\n'], rfl, hline, '\n', rfl, rfl⟩

theorem meaning_skipItem : skipItem.meaning = skipped := by
  change Meaning.nothing.either (Meaning.Iterated controlItem.meaning) = _
  rw [meaning_controlItem]
  ext atLineStart word after
  constructor
  · rintro (rfl | h)
    · exact ⟨[], rfl, by simp⟩
    · induction h with
      | @once _ line _ h => exact ⟨[line], by simp, by simpa using h⟩
      | more hleft _ ih =>
        obtain ⟨lines, rfl, hlines⟩ := ih
        exact ⟨_ :: lines, rfl, List.forall_mem_cons.mpr ⟨hleft, hlines⟩⟩
  · rintro ⟨lines, rfl, hlines⟩
    induction lines generalizing atLineStart with
    | nil => exact Or.inl rfl
    | cons line lines ih =>
      obtain ⟨hline, hlines⟩ := List.forall_mem_cons.mp hlines
      exact Or.inr (.of_followedBy ⟨line, lines.flatten, rfl, hline, ih _ hlines⟩)

end Record

namespace NotePattern

theorem meaning_durationItems (note : NotePattern) :
    itemsMeaning note.durationItems = ofSpelling note.durationSpelling := by
  obtain ⟨pitch, duration⟩ := note
  cases duration with
  | any => exact Record.meaning_anyDuration
  | exact duration => exact Regex.itemsMeaning_plain _

theorem meaning_accidentalItems (accidental : Constraint Accidental) :
    itemsMeaning (accidentalItems accidental) = ofSpelling (accidentalSpelling accidental) := by
  cases accidental with
  | any =>
    rw [accidentalItems, itemsMeaning_singleton]
    exact Record.meaning_accidentalItem
  | exact accidental => exact Regex.itemsMeaning_plain _

theorem meaning_pitchItems (note : NotePattern) :
    itemsMeaning note.pitchItems = ofSpelling note.pitchSpelling := by
  obtain ⟨pitch, duration⟩ := note
  cases pitch with
  | any =>
    have haccidental := meaning_accidentalItems .any
    rw [accidentalItems] at haccidental
    rw [pitchItems, itemsMeaning_cons, haccidental, Record.meaning_lettersItem]
    rfl
  | exact pitch =>
    change itemsMeaning (_ ++ _) = _
    rw [itemsMeaning_append, Regex.itemsMeaning_plain, meaning_accidentalItems]
    rfl

/-- What the items of a note mean before the records without notes. -/
private theorem record_eq (note : NotePattern) :
    Record.startItem.meaning.followedBy ((ofSpelling (run Record.marks.contains)).followedBy
      ((ofSpelling note.durationSpelling).followedBy
        ((ofSpelling note.pitchSpelling).followedBy
          ((ofSpelling fun rest => '\n' ∉ rest ∧ Record.pitchEnd rest).followedBy
            (ofSpelling (exactly ['\n'])))))) = note.record := by
  have hstart : ∀ {atLineStart word after}, Record.startItem.meaning atLineStart word after ↔
      word = [] ∧ atLineStart = true ∨ word = ['\t'] := by
    intro atLineStart word after
    simp [Record.startItem, Regex.plain, Regex.meaning, Meaning.either, CharSet.contains,
      and_comm]
  ext atLineStart word after
  -- Both sides divide the word in the same places. No part before the newline has another one.
  constructor
  · rintro ⟨lead, _, rfl, hlead, marks, _, rfl, hmarks, duration, _, rfl, hduration, pitch, _, rfl,
      hpitch, rest, _, rfl, ⟨hnewline, hrest⟩, rfl⟩
    refine ⟨lead, marks ++ (duration ++ (pitch ++ rest)), by simp, hstart.mp hlead, ?_,
      marks, _, rfl, hmarks, duration, _, rfl, hduration, pitch, rest, rfl, hpitch, hrest⟩
    have hmarks := (Record.WithinToken.run hmarks rfl rfl rfl).newline
    have hduration := (Record.WithinToken.duration hduration).newline
    have hpitch := (Record.WithinToken.pitch hpitch).newline
    simp [hmarks, hduration, hpitch, hnewline]
  · rintro ⟨lead, line, rfl, hlead, hline, marks, _, rfl, hmarks, duration, _, rfl, hduration,
      pitch, rest, rfl, hpitch, hrest⟩
    have hnewline : '\n' ∉ rest := fun hmem => hline (by simp [hmem])
    exact ⟨lead, _, rfl, hstart.mpr hlead, marks, duration ++ (pitch ++ (rest ++ ['\n'])), by simp,
      hmarks, duration, _, rfl, hduration, pitch, _, rfl, hpitch, rest, _, rfl, ⟨hnewline, hrest⟩,
      rfl⟩

/-- The items of a note mean what the note means. -/
theorem meaning_items (note : NotePattern) : itemsMeaning note.items = note.meaning := by
  have hmarks : Record.marksItem.meaning = ofSpelling (run Record.marks.contains) :=
    Regex.meaning_zeroOrMore_chars true Record.marks
  have hnewline : (Regex.plain '\n').meaning = ofSpelling (exactly ['\n']) := by
    simpa using Regex.itemsMeaning_plain ['\n']
  rw [meaning, ← record_eq, items]
  simp only [itemsMeaning_append, itemsMeaning_cons, itemsMeaning_nil, Meaning.followedBy_nothing,
    Meaning.followedBy_assoc, meaning_durationItems, meaning_pitchItems, hmarks, hnewline,
    Record.meaning_restItem, Record.meaning_skipItem]

end NotePattern

end MotifSearch
