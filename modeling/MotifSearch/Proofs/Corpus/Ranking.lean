import MotifSearch.Corpus.Basic

/-!
# The ranking of a search

A search gives one hit for each score with matches, and none for any other score. Hits with more
matches come first, and those with equally many are in the order of the corpus. So another order of
the corpus moves only hits with equally many matches.

## Main definitions

* `Score.hit` — the hit of a score with matches
* `Corpus.IsRanking` — hits that rank some scores

## Main results

* `filter_mergeSort` — sorting keeps the order of what it does not tell apart
* `Corpus.isRanking_searchWith` — the hits of a search rank the scores of the corpus
* `Corpus.search_ranks` — so do those of a search for an expression, in whatever order the scores are
-/

namespace MotifSearch

/-- The hit of a score with matches. -/
def Score.hit (score : Score) (regex : Regex) (mode : ScanMode) : Hit :=
  ⟨score.id, score.title, score.countMatches regex mode⟩

/-- Sorting keeps the order of items that all come before each other. -/
theorem filter_mergeSort {α : Type} {before : α → α → Bool} {test : α → Bool}
    (htrans : ∀ a b c, before a b = true → before b c = true → before a c = true)
    (htotal : ∀ a b, (before a b || before b a) = true)
    (htest : ∀ a b, test a = true → test b = true → before a b = true) (items : List α) :
    (items.mergeSort before).filter test = items.filter test := by
  have hordered : (items.filter test).Pairwise fun a b => before a b = true :=
    List.pairwise_of_forall_mem_list fun a ha b hb =>
      htest a b (List.mem_filter.mp ha).2 (List.mem_filter.mp hb).2
  have hsublist : (items.filter test).Sublist ((items.mergeSort before).filter test) := by
    have h := (List.sublist_mergeSort htrans htotal hordered List.filter_sublist).filter test
    simpa only [List.filter_filter, Bool.and_self] using h
  have hlength := ((List.mergeSort_perm items before).filter test).length_eq
  exact (hsublist.eq_of_length hlength.symm).symm

namespace Corpus

/-- Hits that rank some scores: one hit for each score with matches, those with more matches first
and those with equally many in the order of the scores. -/
structure IsRanking (scores : List Score) (regex : Regex) (mode : ScanMode) (hits : List Hit) :
    Prop where
  perm : hits.Perm ((scores.filter fun score => 0 < score.countMatches regex mode).map
    fun score => score.hit regex mode)
  descending : hits.Pairwise fun first second => second.matchCount ≤ first.matchCount
  stable : ∀ count, 0 < count → hits.filter (fun hit => hit.matchCount = count) =
    (scores.filter fun score => score.countMatches regex mode = count).map
      fun score => score.hit regex mode

variable {scores : List Score} {regex : Regex} {mode : ScanMode} {hits : List Hit}

/-- The hits of scores in the order of the scores. -/
theorem filterMap_hit? (scores : List Score) (regex : Regex) (mode : ScanMode) :
    scores.filterMap (hit? regex mode) =
      (scores.filter fun score => 0 < score.countMatches regex mode).map
        fun score => score.hit regex mode := by
  induction scores with
  | nil => rfl
  | cons score scores ih =>
    by_cases hcount : 0 < score.countMatches regex mode
    · have hhit : hit? regex mode score = some (score.hit regex mode) := if_pos hcount
      rw [List.filterMap_cons_some hhit, List.filter_cons_of_pos (by simpa using hcount),
        List.map_cons, ih]
    · have hhit : hit? regex mode score = none := if_neg hcount
      rw [List.filterMap_cons_none hhit, List.filter_cons_of_neg (by simpa using hcount), ih]

/-- The hits of a search rank the scores of the corpus. -/
theorem isRanking_searchWith (corpus : Corpus) (regex : Regex) (mode : ScanMode) :
    IsRanking corpus.scores regex mode (corpus.searchWith regex mode) := by
  have htrans : ∀ first second third : Hit, decide (second.matchCount ≤ first.matchCount) = true →
      decide (third.matchCount ≤ second.matchCount) = true →
        decide (third.matchCount ≤ first.matchCount) = true := by
    intro first second third hfirst hsecond
    rw [decide_eq_true_iff] at hfirst hsecond ⊢
    exact Nat.le_trans hsecond hfirst
  have htotal : ∀ first second : Hit, (decide (second.matchCount ≤ first.matchCount) ||
      decide (first.matchCount ≤ second.matchCount)) = true := by
    intro first second
    rw [Bool.or_eq_true, decide_eq_true_iff, decide_eq_true_iff]
    exact Nat.le_total _ _
  rw [searchWith, filterMap_hit?]
  constructor
  · exact List.mergeSort_perm _ _
  · exact (List.pairwise_mergeSort htrans htotal _).imp of_decide_eq_true
  · intro count hcount
    have hequal : ∀ first second : Hit, decide (first.matchCount = count) = true →
        decide (second.matchCount = count) = true →
          decide (second.matchCount ≤ first.matchCount) = true := by
      intro first second hfirst hsecond
      rw [decide_eq_true_iff] at hfirst hsecond ⊢
      exact Nat.le_of_eq (hsecond.trans hfirst.symm)
    rw [filter_mergeSort htrans htotal hequal, List.filter_map, List.filter_filter]
    refine congrArg (List.map _) (List.filter_congr fun score _ => ?_)
    by_cases heq : score.countMatches regex mode = count
    · simp [Score.hit, heq, hcount]
    · simp [Score.hit, heq]

/-- Rankings of the same scores have the same counts, and differ only in the order of hits with
equally many matches. -/
theorem IsRanking.reorder {others : List Score} {otherHits : List Hit}
    (h : IsRanking scores regex mode hits) (hother : IsRanking others regex mode otherHits)
    (hperm : others.Perm scores) :
    otherHits.map Hit.matchCount = hits.map Hit.matchCount ∧
      ∀ count, (otherHits.filter fun hit => hit.matchCount = count).Perm
        (hits.filter fun hit => hit.matchCount = count) := by
  have hhits : otherHits.Perm hits :=
    hother.perm.trans (((hperm.filter _).map _).trans h.perm.symm)
  refine ⟨?_, fun count => hhits.filter _⟩
  have hdescending : ∀ {hits : List Hit},
      hits.Pairwise (fun first second => second.matchCount ≤ first.matchCount) →
        (hits.map Hit.matchCount).Pairwise (· ≥ ·) := fun h => List.pairwise_map.mpr h
  exact List.Perm.eq_of_pairwise (fun _ _ _ _ hge hle => Nat.le_antisymm hle hge)
    (hdescending hother.descending) (hdescending h.descending) (hhits.map _)

/-- The hits of an expression rank the scores of a corpus: each score with matches has one hit, and
hits with more matches come first. Those with equally many are in the order of the corpus, and only
these change their order when the corpus does. -/
theorem search_ranks (corpus : Corpus) {expression : List Char}
    (h : readExpression expression = .ok regex) (mode : ScanMode) :
    ∃ hits, corpus.search expression mode = .ok hits ∧ IsRanking corpus.scores regex mode hits ∧
      ∀ other : Corpus, other.scores.Perm corpus.scores →
        ∃ otherHits, other.search expression mode = .ok otherHits ∧
          otherHits.map Hit.matchCount = hits.map Hit.matchCount ∧
          ∀ count, (otherHits.filter fun hit => hit.matchCount = count).Perm
            (hits.filter fun hit => hit.matchCount = count) := by
  have hsearch : ∀ corpus : Corpus,
      corpus.search expression mode = .ok (corpus.searchWith regex mode) := by
    intro corpus
    rw [search, h]
    rfl
  refine ⟨_, hsearch corpus, isRanking_searchWith corpus regex mode, fun other hperm => ?_⟩
  exact ⟨_, hsearch other, (isRanking_searchWith corpus regex mode).reorder
    (isRanking_searchWith other regex mode) hperm⟩

/-- Two scores with one match each, one without any, and one with two matches and an id that is used
twice. -/
def fourScores : Corpus where
  scores := [⟨7, "first".toList, "4c\n".toList⟩, ⟨8, "none".toList, "4d\n".toList⟩,
    ⟨7, "most".toList, "4c\n4c\n".toList⟩, ⟨5, "last".toList, "=\n4c\n".toList⟩]

/-- The score with two matches comes first, and the other ones stay in order. -/
theorem search_ranks_fourScores :
    ∃ regex, readExpression "4c".toList = .ok regex ∧
      fourScores.search "4c".toList .whole =
        .ok [⟨7, "most".toList, 2⟩, ⟨7, "first".toList, 1⟩, ⟨5, "last".toList, 1⟩] ∧
      IsRanking fourScores.scores regex .whole
        [⟨7, "most".toList, 2⟩, ⟨7, "first".toList, 1⟩, ⟨5, "last".toList, 1⟩] := by
  have hread : readExpression "4c".toList =
      .ok (.cat (.chars (.single '4')) (.chars (.single 'c'))) := rfl
  have hhits : fourScores.scores.filterMap
      (hit? (.cat (.chars (.single '4')) (.chars (.single 'c'))) .whole) =
        [⟨7, "first".toList, 1⟩, ⟨7, "most".toList, 2⟩, ⟨5, "last".toList, 1⟩] := by
    decide +kernel
  have hsorted : fourScores.searchWith (.cat (.chars (.single '4')) (.chars (.single 'c'))) .whole =
      [⟨7, "most".toList, 2⟩, ⟨7, "first".toList, 1⟩, ⟨5, "last".toList, 1⟩] := by
    rw [searchWith, hhits]
    simp [List.mergeSort]
  have hsearch : fourScores.search "4c".toList .whole =
      .ok [⟨7, "most".toList, 2⟩, ⟨7, "first".toList, 1⟩, ⟨5, "last".toList, 1⟩] := by
    rw [search, hread]
    exact congrArg Except.ok hsorted
  obtain ⟨hits, hfound, hranking, -⟩ := search_ranks fourScores hread .whole
  obtain rfl := Except.ok.inj (hsearch.symm.trans hfound)
  exact ⟨_, hread, hsearch, hranking⟩

end Corpus

end MotifSearch
