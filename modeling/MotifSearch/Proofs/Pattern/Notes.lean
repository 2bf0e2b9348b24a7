import MotifSearch.Proofs.Pattern.Lines

/-!
# The notes of a pattern

A match that is not empty begins with one of the notes of the pattern: whatever comes first in a
sequence, in a branch or in a group is made of notes, and only these read something. So the record
with which a match begins spells a note of the pattern, from where the match begins.

## Main definitions

* `Pattern.notes` — the notes of a pattern
* `Record.BeginsWith` — a match of one of some notes begins in the first line of a word
* `Meaning.StartsWith`, `Pattern.ItemsStart` — the words of a meaning, or of items, begin so

## Main results

* `startsWith_branches` — the branches of a pattern begin with its notes
* `begins_of_preferredLength` — so does what a search prefers
-/

namespace MotifSearch

open Regex (itemsMeaning itemsMeaning_append itemsMeaning_singleton)

namespace Pattern

mutual

/-- The notes of a pattern, from left to right. -/
def notes : Pattern → List NotePattern
  | note spec => [spec]
  | sequence children => sequenceNotes children
  | alternation branches => branchesNotes branches
  | group children _ => sequenceNotes children

/-- The notes of the children of a node. -/
def sequenceNotes : List Pattern → List NotePattern
  | [] => []
  | child :: children => child.notes ++ sequenceNotes children

/-- The notes of the branches of an alternation. -/
def branchesNotes : List (List Pattern) → List NotePattern
  | [] => []
  | branch :: branches => sequenceNotes branch ++ branchesNotes branches

end

end Pattern

/-- The first line of a word is one in which a match of one of some notes begins. -/
def Record.BeginsWith (notes : List NotePattern) (atLineStart : Bool) (word : List Char) : Prop :=
  ∃ note ∈ notes, ∃ part rest, word = part ++ '\n' :: rest ∧ '\n' ∉ part ∧
    Begins note atLineStart part

/-- The words of a meaning are empty or begin with one of some notes. -/
def Meaning.StartsWith (notes : List NotePattern) (meaning : Meaning) : Prop :=
  ∀ atLineStart word after, meaning atLineStart word after → word ≠ [] →
    Record.BeginsWith notes atLineStart word

namespace Record.BeginsWith

variable {notes more : List NotePattern} {atLineStart : Bool} {word : List Char}

theorem mono (h : BeginsWith notes atLineStart word) (hsubset : notes ⊆ more) :
    BeginsWith more atLineStart word := by
  obtain ⟨note, hnote, hbegins⟩ := h
  exact ⟨note, hsubset hnote, hbegins⟩

theorem append (h : BeginsWith notes atLineStart word) (behind : List Char) :
    BeginsWith notes atLineStart (word ++ behind) := by
  obtain ⟨note, hnote, part, rest, rfl, hpart, hbegins⟩ := h
  exact ⟨note, hnote, part, rest ++ behind, by simp, hpart, hbegins⟩

end Record.BeginsWith

namespace Meaning

variable {notes more : List NotePattern} {meaning : Meaning}

theorem StartsWith.mono (h : StartsWith notes meaning) (hsubset : notes ⊆ more) :
    StartsWith more meaning :=
  fun atLineStart word after hword hne => (h atLineStart word after hword hne).mono hsubset

/-- A word begins with a note if the first part of it that is not empty does. -/
private theorem beginsWith_append {atLineStart : Bool} {left right : List Char}
    (hleft : left ≠ [] → Record.BeginsWith notes atLineStart left)
    (hright : right ≠ [] → Record.BeginsWith notes (lineStartAfter atLineStart left) right)
    (hne : left ++ right ≠ []) : Record.BeginsWith notes atLineStart (left ++ right) := by
  cases left with
  | nil => exact hright hne
  | cons c left => exact (hleft (List.cons_ne_nil c left)).append right

theorem StartsWith.compositional (notes : List NotePattern) :
    Compositional (StartsWith notes) where
  nothing _ _ _ h hne := absurd h hne
  never _ _ _ h := h.elim
  followedBy := by
    rintro first second hfirst hsecond atLineStart _ after ⟨left, right, rfl, hleft, hright⟩ hne
    exact beginsWith_append (hfirst _ _ _ hleft) (hsecond _ _ _ hright) hne
  either := by
    rintro first second hfirst hsecond atLineStart word after (h | h) hne
    · exact hfirst _ _ _ h hne
    · exact hsecond _ _ _ h hne
  iterated := by
    intro body hbody atLineStart word after h hne
    induction h with
    | once h => exact hbody _ _ _ h hne
    | more hleft _ ih => exact beginsWith_append (hbody _ _ _ hleft) ih hne

theorem Compositional.choice {holds : Meaning → Prop} (h : Compositional holds)
    {meanings : List Meaning} (hall : ∀ meaning ∈ meanings, holds meaning) :
    holds (Meaning.choice meanings) := by
  induction meanings with
  | nil => exact h.never
  | cons meaning meanings ih =>
    obtain ⟨hmeaning, hmeanings⟩ := List.forall_mem_cons.mp hall
    exact h.either hmeaning (ih hmeanings)

end Meaning

/-- A note begins with itself. -/
theorem NotePattern.startsWith_meaning (note : NotePattern) :
    Meaning.StartsWith [note] note.meaning := by
  intro atLineStart word after h _
  obtain ⟨part, controls, rfl, hpart, hbegins, -⟩ := Record.note_iff.mp h
  exact ⟨note, List.mem_singleton_self note, part, _, Record.terminatedText_cons, hpart, hbegins⟩

namespace Pattern

variable {notes : List NotePattern}

/-- Items that mean words which begin with one of some notes. -/
def ItemsStart (notes : List NotePattern) (items : List Regex) : Prop :=
  Meaning.StartsWith notes (itemsMeaning items)

private theorem ItemsStart.append {first second : List Regex} (hfirst : ItemsStart notes first)
    (hsecond : ItemsStart notes second) : ItemsStart notes (first ++ second) := by
  rw [ItemsStart, itemsMeaning_append]
  exact (Meaning.StartsWith.compositional notes).followedBy hfirst hsecond

private theorem ItemsStart.mono {more : List NotePattern} {branches : List (List Regex)}
    (h : ∀ items ∈ branches, ItemsStart notes items) (hsubset : notes ⊆ more) :
    ∀ items ∈ branches, ItemsStart more items :=
  fun items hitems => Meaning.StartsWith.mono (h items hitems) hsubset

private theorem itemsStart_nil (notes : List NotePattern) : ItemsStart notes [] :=
  (Meaning.StartsWith.compositional notes).nothing

/-- A choice begins with what its branches begin with. -/
private theorem startsWith_tree {pieces : List Piece}
    (h : ∀ items ∈ Piece.branches pieces, ItemsStart notes items) :
    Meaning.StartsWith notes (Piece.tree pieces).meaning := by
  rw [Piece.tree, Regex.meaning_ofBranches (Piece.branches_ne_nil _), Regex.branchesMeaning]
  refine (Meaning.StartsWith.compositional notes).choice fun meaning hmeaning => ?_
  obtain ⟨items, hitems, rfl⟩ := List.mem_map.mp hmeaning
  exact h items hitems

mutual

/-- The branches of a pattern begin with its notes. -/
theorem startsWith_branches : (pattern : Pattern) →
    ∀ items ∈ Piece.branches pattern.pieces, ItemsStart pattern.notes items
  | note spec => by
    rw [pieces, Piece.branches_map_item, notes]
    refine List.forall_mem_singleton.mpr ?_
    rw [ItemsStart, spec.meaning_items]
    exact spec.startsWith_meaning
  | sequence children => startsWith_sequencePieces children
  | alternation branches => startsWith_branchesPieces branches
  | group children bounds => by
    have hbody := startsWith_tree (startsWith_sequencePieces children)
    refine List.forall_mem_singleton.mpr ?_
    rw [ItemsStart, itemsMeaning_singleton, Quantifier.meaning_loop]
    exact (Meaning.StartsWith.compositional _).repeated bounds.usedQuantifier hbody

theorem startsWith_sequencePieces : (children : List Pattern) →
    ∀ items ∈ Piece.branches (sequencePieces children), ItemsStart (sequenceNotes children) items
  | [] => List.forall_mem_singleton.mpr (itemsStart_nil _)
  | child :: children => by
    rw [sequencePieces, Piece.branches_append, sequenceNotes]
    exact forall_mem_joinBranches ItemsStart.append
      (ItemsStart.mono (startsWith_branches child) (List.subset_append_left ..))
      (ItemsStart.mono (startsWith_sequencePieces children) (List.subset_append_right ..))

theorem startsWith_branchesPieces : (branches : List (List Pattern)) →
    ∀ items ∈ Piece.branches (branchesPieces branches), ItemsStart (branchesNotes branches) items
  | [] => List.forall_mem_singleton.mpr (itemsStart_nil _)
  | [branch] =>
    ItemsStart.mono (startsWith_sequencePieces branch) (List.subset_append_left ..)
  | branch :: next :: branches => by
    have hothers := ItemsStart.mono (startsWith_branchesPieces (next :: branches))
      (List.subset_append_right (sequenceNotes branch) _)
    rw [branchesPieces, Piece.branches_append, branchesNotes]
    · exact forall_mem_joinBranches ItemsStart.append
        (ItemsStart.mono (startsWith_sequencePieces branch) (List.subset_append_left ..))
        (List.forall_mem_cons.mpr ⟨itemsStart_nil _, hothers⟩)
    · simp

end

/-- What a search prefers to the empty match begins with a note of the pattern. -/
theorem begins_of_preferredLength {pattern : Pattern} {atLineStart : Bool} {word after : List Char}
    (h : pattern.syntaxTree.factored.preferredLength atLineStart (word ++ after) =
      some word.length) (hne : word ≠ []) :
    Record.BeginsWith pattern.notes atLineStart word := by
  obtain ⟨-, hmeaning⟩ := Regex.meaning_of_preferredLength h
  rw [List.take_left, List.drop_left, Regex.meaning_factored] at hmeaning
  exact startsWith_tree pattern.startsWith_branches _ _ _ hmeaning hne

end Pattern

end MotifSearch
