import MotifSearch.Proofs.Kern.LineSpans
import MotifSearch.Proofs.Pattern.Preference
import MotifSearch.Proofs.Regex.Widening
import MotifSearch.Proofs.Search.Spans

/-!
# What a search covers

A search reports preferred matches only, one after the other, and drops the empty ones. Still it
reports a part of everything that an expression can match, unless something is hidden behind an
alternative that can be empty: such an alternative is taken where it matches nothing, and those
after it are not tried.

## Main definitions

* `Regex.emptyOnlyLast` — of all alternatives only last ones can be empty

## Main results

* `Regex.meaning_syntaxTree_le` — all words but the empty one are preferred to it
* `Regex.exists_mem_spansFrom` — a match that is preferred where it begins is covered there
* `exists_overlapping_of_matches` — what can be matched overlaps something that is reported
-/

namespace MotifSearch

open Text (byteLength)

namespace Regex

open Meaning

/-- Whether no alternative of a choice can be empty, the last one of each choice excepted. Brackets
that do not capture are left out; with them the parts of a note are written. -/
def emptyOnlyLast : Regex → Bool
  | empty | chars _ | lineStart | notAhead _ | group false _ => true
  | group true body | loop _ _ body => body.emptyOnlyLast
  | cat first rest => first.emptyOnlyLast && rest.emptyOnlyLast
  | alt first rest => !first.nullable && first.emptyOnlyLast && rest.emptyOnlyLast

/-- All words of some items are empty or preferred to the empty word, if of their alternatives only
last ones can be empty. -/
private def PrefersWords (items : List Regex) : Prop :=
  (∀ item ∈ items, item.emptyOnlyLast = true) →
    itemsMeaning items ≤ nothing.either (itemsPreferring items)

theorem emptyOnlyLast_concat {items : List Regex} (h : (concat items).emptyOnlyLast = true) :
    ∀ item ∈ items, item.emptyOnlyLast = true := by
  induction items with
  | nil => simp
  | cons item items ih =>
    cases items with
    | nil => simpa using h
    | cons next items =>
      rw [concat_cons_cons, emptyOnlyLast, Bool.and_eq_true] at h
      exact List.forall_mem_cons.mpr ⟨h.1, ih h.2⟩

private theorem prefersWords_append {first second : List Regex} (hfirst : PrefersWords first)
    (hsecond : PrefersWords second) : PrefersWords (first ++ second) := by
  intro hlast
  obtain ⟨hlastFirst, hlastSecond⟩ := List.forall_mem_append.mp hlast
  cases hnullable : itemsNullable (first ++ second) with
  | false =>
    rw [itemsPreferring_of_not_nullable hnullable]
    exact le_either_right
  | true =>
    rw [itemsNullable_append, Bool.and_eq_true] at hnullable
    rw [itemsMeaning_append, itemsPreferring_append hnullable.1 hnullable.2]
    calc (itemsMeaning first).followedBy (itemsMeaning second)
        ≤ (nothing.either (itemsPreferring first)).followedBy (itemsMeaning second) :=
          followedBy_mono (hfirst hlastFirst) le_rfl
      _ = (itemsMeaning second).either
            ((itemsPreferring first).followedBy (itemsMeaning second)) := by
          rw [either_followedBy, nothing_followedBy]
      _ ≤ _ := either_le
          ((hsecond hlastSecond).trans
            (either_le le_either_left (le_either_right.trans le_either_right)))
          (le_either_left.trans le_either_right)

/-- A choice has words of its branches only, and a branch hides the ones after it only if it can be
empty. -/
private theorem meaning_ofBranches_le {branches : List (List Regex)}
    (hbranches : ∀ items ∈ branches, PrefersWords items)
    (hlast : (ofBranches branches).emptyOnlyLast = true) :
    (ofBranches branches).meaning ≤ nothing.either (ofBranches branches).preferring := by
  induction branches with
  | nil => exact le_either_left
  | cons items branches ih =>
    obtain ⟨hitems, hothers⟩ := List.forall_mem_cons.mp hbranches
    cases branches with
    | nil =>
      rw [ofBranches, List.map_singleton, alternatives_singleton] at hlast ⊢
      rw [meaning_concat, preferring_concat]
      exact hitems (emptyOnlyLast_concat hlast)
    | cons next branches =>
      rw [ofBranches] at ih
      rw [ofBranches, List.map_cons, List.map_cons, alternatives_cons_cons, ← List.map_cons]
        at hlast ⊢
      rw [emptyOnlyLast, Bool.and_eq_true, Bool.and_eq_true, Bool.not_eq_true'] at hlast
      obtain ⟨⟨hnullable, -⟩, hrest⟩ := hlast
      rw [preferring, hnullable]
      exact either_le (le_either_left.trans le_either_right)
        ((ih hothers hrest).trans
          (either_le le_either_left (le_either_right.trans le_either_right)))

/-- Iterations that match nothing go before the first one that is preferred. -/
private theorem iterated_le {body preferred : Meaning} (h : body ≤ nothing.either preferred) :
    (Iterated body : Meaning) ≤
      nothing.either (preferred.followedBy (body.repeated .zeroOrMore)) := by
  intro atLineStart word after hword
  induction hword with
  | once hbody =>
    exact (h _ _ _ hbody).imp id fun hpreferred => ⟨_, [], by simp, hpreferred, Or.inl rfl⟩
  | more hleft hright ih =>
    rcases h _ _ _ hleft with rfl | hpreferred
    · exact ih
    · exact Or.inr ⟨_, _, rfl, hpreferred, Or.inr hright⟩

private theorem prefersWords_group (quantifier : Quantifier) {pieces : List Piece}
    (hpieces : ∀ items ∈ Piece.branches pieces, PrefersWords items) :
    PrefersWords [quantifier.loop (.group true (Piece.tree pieces))] := by
  intro hlast
  rw [List.forall_mem_singleton] at hlast
  rw [itemsMeaning_singleton, itemsPreferring_singleton]
  have hlastTree : (Piece.tree pieces).emptyOnlyLast = true := by
    cases quantifier <;> exact hlast
  have hle := meaning_ofBranches_le hpieces hlastTree
  have hiterated := iterated_le hle
  cases quantifier with
  | exactlyOne => exact hle
  | optional => exact either_le le_either_left hle
  | oneOrMore => exact hiterated
  | zeroOrMore => exact either_le le_either_left hiterated

/-- All words of a pattern but the empty one are preferred to it, if of its alternatives only last
ones can be empty. -/
theorem meaning_syntaxTree_le {pattern : Pattern}
    (hlast : pattern.syntaxTree.emptyOnlyLast = true) :
    pattern.syntaxTree.meaning ≤ nothing.either pattern.syntaxTree.preferring := by
  refine meaning_ofBranches_le (Pattern.holds_of_mem_branches ⟨?_, prefersWords_append,
    fun note _ => ?_, prefersWords_group⟩ pattern) hlast
  · exact fun _ => le_either_left
  · rw [itemsPreferring_of_not_nullable note.itemsNullable_items]
    exact le_either_right

private theorem byteLength_lt_take {before text : List Char} {reach : Nat}
    (hreach : before.length < reach) (htext : text ≠ []) :
    byteLength before < byteLength ((before ++ text).take reach) := by
  obtain ⟨c, text, rfl⟩ := List.exists_cons_of_ne_nil htext
  obtain ⟨more, rfl⟩ := Nat.exists_eq_add_of_lt hreach
  have hpos := c.utf8Size_pos
  rw [Nat.add_assoc, List.take_length_add_append, Text.byteLength_append, List.take_succ_cons,
    Text.byteLength_cons]
  omega

/-- Where the preferred match at a position is not empty, what is reported covers the position: this
match, or one that begins further to the left and goes on beyond it. -/
theorem exists_mem_spansFrom {regex : Regex} {skip offset more : Nat} {atLineStart : Bool}
    {before text : List Char} (hskip : skip ≤ before.length)
    (h : regex.preferredLength (lineStartAfter atLineStart before) text = some (more + 1)) :
    ∃ span ∈ regex.spansFrom skip atLineStart offset (before ++ text),
      span.start ≤ offset + byteLength before ∧ offset + byteLength before < span.stop := by
  have htext : text ≠ [] := by
    rintro rfl
    exact absurd (meaning_of_preferredLength h).1 (Nat.not_succ_le_zero more)
  induction before generalizing skip offset atLineStart with
  | nil =>
    obtain rfl : skip = 0 := Nat.le_zero.mp hskip
    obtain ⟨c, rest, rfl⟩ := List.exists_cons_of_ne_nil htext
    rw [lineStartAfter_nil] at h
    rw [List.nil_append, spansFrom_of_some h rfl]
    exact ⟨_, List.mem_cons_self, Nat.le_refl _,
      Nat.add_lt_add_left (byteLength_lt_take (Nat.succ_pos more) htext) offset⟩
  | cons c before ih =>
    -- Where a match does not reach the position, the search comes to it later.
    have hrest : ∀ skip ≤ before.length, ∃ span ∈ regex.spansFrom skip (c == '\n')
        (offset + c.utf8Size) (before ++ text), span.start ≤ offset + byteLength (c :: before) ∧
          offset + byteLength (c :: before) < span.stop := by
      intro skip hskip
      rw [Text.byteLength_cons, ← Nat.add_assoc]
      exact ih hskip h
    cases skip with
    | succ skip => exact hrest skip (Nat.le_of_succ_le_succ hskip)
    | zero =>
      rw [List.cons_append, spansFrom]
      split
      · next reach _ =>
        rcases Nat.lt_or_ge before.length reach with hlong | hshort
        · exact ⟨_, List.mem_cons_self, Nat.le_add_right .., Nat.add_lt_add_left
            (byteLength_lt_take (Nat.succ_lt_succ hlong) htext) offset⟩
        · obtain ⟨span, hspan, hcovers⟩ := hrest reach hshort
          exact ⟨span, List.mem_cons_of_mem _ hspan, hcovers⟩
      · exact hrest 0 (Nat.zero_le _)

end Regex

/-- A search loses no occurrence: whatever an expression can match of a score, and be it in a way
that is not preferred, overlaps something that the search reports. Only alternatives after one that
can be empty are not covered. -/
theorem exists_overlapping_of_matches {pattern : Pattern} {score : List Char} {regex : Regex}
    {range : Span} (hread : readExpression pattern.compile.expression = .ok regex)
    (hlast : regex.emptyOnlyLast = true) (hmatches : regex.meaning.Matches score range)
    (hne : range.start < range.stop) :
    ∃ spans, locate score pattern.compile.expression = .ok spans ∧
      ∃ span ∈ spans, span.Overlaps range := by
  obtain rfl := Pattern.eq_syntaxTree_of_read hread
  obtain ⟨before, word, after, rfl, rfl, hword⟩ := hmatches
  rcases Regex.meaning_syntaxTree_le hlast _ _ _ hword with rfl | hpreferring
  · simp at hne
  · have hsettled := pattern.settled_syntaxTree
    rw [← Regex.preferring_factored hsettled] at hpreferring
    obtain ⟨more, hmore⟩ :=
      Regex.exists_preferredLength_of_preferring hsettled.factored hpreferring
    have hcovered : ∃ span ∈ pattern.syntaxTree.findAll (before ++ (word ++ after)),
        span.start ≤ 0 + byteLength before ∧ 0 + byteLength before < span.stop := by
      rw [Regex.findAll_eq_spansFrom]
      exact Regex.exists_mem_spansFrom (Nat.zero_le _) hmore
    obtain ⟨span, hspan, hcovers⟩ := hcovered
    rw [Nat.zero_add] at hcovers
    refine ⟨_, by rw [locate, hread, Except.map], span, hspan, ?_⟩
    exact Span.overlaps_iff.mpr ⟨byteLength before, hcovers, Nat.le_refl _, hne⟩

/-- One note as often as possible, or an optional other note. -/
def manyOrOptional : Pattern :=
  .sequence [.group [.alternation [[.quarterNote .c], [.group [.quarterNote .d] ⟨none, some 1⟩]]]
    ⟨some 1, none⟩]

set_option maxRecDepth 2000 in
/-- The first one of two notes is matched by itself, too, though the preferred match takes both. -/
theorem exists_overlapping_of_matches_manyOrOptional :
    readExpression manyOrOptional.compile.expression = .ok manyOrOptional.syntaxTree ∧
      manyOrOptional.syntaxTree.emptyOnlyLast = true ∧
      manyOrOptional.syntaxTree.meaning.Matches "4c\n4c\n".toList ⟨0, 3⟩ ∧
      ∃ spans, locate "4c\n4c\n".toList manyOrOptional.compile.expression = .ok spans ∧
        ∃ span ∈ spans, span.Overlaps ⟨0, 3⟩ := by
  have hread : readExpression manyOrOptional.compile.expression =
    .ok manyOrOptional.syntaxTree := rfl
  have hlast : manyOrOptional.syntaxTree.emptyOnlyLast = true := by decide +kernel
  have hending : 3 ∈ Regex.endings [.whole Regex.rootAddress manyOrOptional.syntaxTree] true
      "4c\n4c\n".toList := by decide +kernel
  have hmatches : manyOrOptional.syntaxTree.meaning.Matches "4c\n4c\n".toList ⟨0, 3⟩ :=
    ⟨[], _, _, rfl, rfl, (Regex.mem_endings_iff.mp hending).2⟩
  exact ⟨hread, hlast, hmatches, exists_overlapping_of_matches hread hlast hmatches (by decide)⟩

end MotifSearch
