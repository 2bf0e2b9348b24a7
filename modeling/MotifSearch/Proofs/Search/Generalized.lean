import MotifSearch.Corpus.Basic
import MotifSearch.Proofs.Pattern.Generalized
import MotifSearch.Proofs.Search.Found

/-!
# What is found by a pattern that asks for less

A pattern of which some notes are left open further is found wherever the pattern itself is, in a
score and in each voice of it. So no score drops out of the hits of a corpus, though another number
of matches may be counted in it.

## Main results

* `Score.countMatches_pos` — a score has matches if something is found wherever it was before
* `Corpus.mem_searchWith` — the hits of a corpus
* `found_of_generalizedTo` — matches and hits of a pattern that asks for less
-/

namespace MotifSearch

variable {regex wider : Regex}

/-- A score has matches of an expression that is found in every text in which another one is. -/
theorem Score.countMatches_pos {score : Score} {mode : ScanMode}
    (h : ∀ text, regex.findAll text ≠ [] → wider.findAll text ≠ [])
    (hcount : 0 < score.countMatches regex mode) : 0 < score.countMatches wider mode := by
  cases mode with
  | whole => exact List.length_pos_iff.mpr (h _ (List.length_pos_iff.mp hcount))
  | voices =>
    obtain ⟨span, hspan⟩ := List.exists_mem_of_length_pos hcount
    obtain ⟨voice, hvoice, hspan⟩ := List.mem_flatMap.mp hspan
    obtain ⟨found, hfound⟩ := List.exists_mem_of_ne_nil _ (h voice (List.ne_nil_of_mem hspan))
    exact List.length_pos_of_mem (List.mem_flatMap.mpr ⟨voice, hvoice, hfound⟩)

theorem Corpus.mem_searchWith {corpus : Corpus} {mode : ScanMode} {hit : Hit} :
    hit ∈ corpus.searchWith regex mode ↔ ∃ score ∈ corpus.scores,
      0 < score.countMatches regex mode ∧
        hit = ⟨score.id, score.title, score.countMatches regex mode⟩ := by
  simp only [searchWith, List.mem_mergeSort, List.mem_filterMap, hit?]
  simp [eq_comm]

/-- What is found by a pattern is found by one that asks for less. -/
theorem Pattern.findAll_ne_nil_of_generalizedTo {pattern wide : Pattern}
    (h : pattern.GeneralizedTo wide) (text : List Char)
    (hfound : pattern.syntaxTree.findAll text ≠ []) : wide.syntaxTree.findAll text ≠ [] := by
  rw [Regex.findAll_ne_nil_iff (settled_syntaxTree _)] at hfound ⊢
  exact hfound.mono (preferring_le h)

/-- A pattern that asks for less has matches in every score in which the pattern has some, in the
whole score and in the voices, and every hit in a corpus is a hit of it, too. -/
theorem found_of_generalizedTo {pattern wide : Pattern} (h : pattern.GeneralizedTo wide)
    (hread : readExpression pattern.compile.expression = .ok regex)
    (hwide : readExpression wide.compile.expression = .ok wider) :
    (∀ (score : Score) (mode : ScanMode),
      0 < score.countMatches regex mode → 0 < score.countMatches wider mode) ∧
    ∀ (corpus : Corpus) (mode : ScanMode), ∃ hits widerHits,
      corpus.search pattern.compile.expression mode = .ok hits ∧
      corpus.search wide.compile.expression mode = .ok widerHits ∧
      ∀ hit ∈ hits, ∃ widerHit ∈ widerHits,
        widerHit.id = hit.id ∧ widerHit.title = hit.title := by
  obtain rfl := Pattern.eq_syntaxTree_of_read hread
  obtain rfl := Pattern.eq_syntaxTree_of_read hwide
  have hcount : ∀ (score : Score) (mode : ScanMode),
      0 < score.countMatches pattern.syntaxTree mode →
        0 < score.countMatches wide.syntaxTree mode :=
    fun _ _ => Score.countMatches_pos (Pattern.findAll_ne_nil_of_generalizedTo h)
  refine ⟨hcount, fun corpus mode => ?_⟩
  refine ⟨corpus.searchWith pattern.syntaxTree mode, corpus.searchWith wide.syntaxTree mode,
    by rw [Corpus.search, hread, Except.map], by rw [Corpus.search, hwide, Except.map], ?_⟩
  intro hit hhit
  obtain ⟨score, hscore, hpos, rfl⟩ := Corpus.mem_searchWith.mp hhit
  exact ⟨_, Corpus.mem_searchWith.mpr ⟨score, hscore, hcount score mode hpos, rfl⟩, rfl, rfl⟩

/-- A note an octave above middle c, as often as possible. -/
def manyOfC (accidental : Constraint Accidental) (duration : Constraint DottedDuration) :
    Pattern :=
  .group [.note ⟨.exact ⟨.c, ⟨5, by decide, by decide⟩, accidental⟩, duration⟩] ⟨some 1, none⟩

/-- Dotted quarter notes with a sharp are found if the accidental and the duration are left open. -/
theorem found_of_generalizedTo_manyOfC :
    (manyOfC (.exact .sharp) (.exact ⟨.denominator 4, 1⟩)).GeneralizedTo (manyOfC .any .any) ∧
      0 < Score.countMatches ⟨0, [], "4.cc#\n4.cc#\n".toList⟩
        (manyOfC (.exact .sharp) (.exact ⟨.denominator 4, 1⟩)).syntaxTree .whole ∧
      0 < Score.countMatches ⟨0, [], "4.cc#\n4.cc#\n".toList⟩
        (manyOfC .any .any).syntaxTree .whole := by
  have hgeneralized : (manyOfC (.exact .sharp) (.exact ⟨.denominator 4, 1⟩)).GeneralizedTo
      (manyOfC .any .any) :=
    .group _ (.cons (.note ⟨.accidental _, Or.inr rfl⟩) .nil)
  have hcount : 0 < Score.countMatches ⟨0, [], "4.cc#\n4.cc#\n".toList⟩
      (manyOfC (.exact .sharp) (.exact ⟨.denominator 4, 1⟩)).syntaxTree .whole := by
    decide +kernel
  obtain ⟨hcounts, -⟩ := found_of_generalizedTo hgeneralized rfl rfl
  exact ⟨hgeneralized, hcount, hcounts _ _ hcount⟩

end MotifSearch
