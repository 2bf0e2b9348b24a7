import MotifSearch.Corpus.Basic
import MotifSearch.Proofs.Kern.SingleSpine
import MotifSearch.Proofs.Pattern.Meaning
import MotifSearch.Proofs.Search.ControlRecords

/-!
# Searching scores of a single spine

The text of a single spine is what is left of a score without the comments around it. Nothing is
found in the comments before the spine, and no match goes on into those after it, so that it makes
no difference whether the score or its voices are searched.

## Main results

* `spansFrom_text` — what is found in a score of a single spine is found in the spine
* `countMatches_singleSpine` — both scan modes count the same matches
-/

namespace MotifSearch

open Record (IsControl terminatedText)

namespace Kern.SingleSpine

variable (parts : SingleSpine)

private theorem isControl_of_comment {line : List Char} (h : line.head? = some '!')
    (hnewline : '\n' ∉ line) : IsControl (line ++ ['\n']) := by
  rw [← Record.isControl_iff hnewline, Record.isControl, h]
  rfl

/-- What is found in a score of a single spine is what is found in the spine. -/
theorem spansFrom_text {regex : Regex}
    (h : Regex.Leads Record.matchedControl regex .between .between) :
    regex.spansFrom 0 true 0 parts.text =
      regex.spansFrom 0 true (Text.byteLength (terminatedText parts.before))
        (terminatedText parts.spine) := by
  have hbefore : ∀ line ∈ parts.before, IsControl (line ++ ['\n']) ∧ '\t' ∉ line := by
    intro line hline
    obtain ⟨hnewline, htab⟩ := parts.apart line (by simp [hline])
    exact ⟨isControl_of_comment (parts.comment_before line hline).1 hnewline, htab⟩
  have hafter : ∀ line ∈ parts.after, IsControl (line ++ ['\n']) ∧ '\t' ∉ line := by
    intro line hline
    obtain ⟨hnewline, htab⟩ := parts.apart line (by simp [hline])
    exact ⟨isControl_of_comment (parts.comment_after line hline).1 hnewline, htab⟩
  rw [text, Regex.spansFrom_controls h hbefore, Nat.zero_add,
    Regex.spansFrom_append_controls h hafter (Record.lineStartAfter_terminatedText _)]

end Kern.SingleSpine

/-- In a score of a single spine, the matches in the score are as many as those in its voices. -/
theorem countMatches_singleSpine {pattern : Pattern} {regex : Regex}
    (hread : readExpression pattern.compile.expression = .ok regex) {score : Score}
    (parts : Kern.SingleSpine) (hscore : score.kern = parts.text) :
    score.countMatches regex .whole = score.countMatches regex .voices := by
  obtain rfl := Pattern.eq_syntaxTree_of_read hread
  rw [Score.countMatches, Score.countMatches, hscore, parts.voices_text, List.flatMap_singleton,
    Regex.findAll_eq_spansFrom, Regex.findAll_eq_spansFrom,
    parts.spansFrom_text pattern.leads_factored, Regex.length_spansFrom]

/-- A score of one note with a comment before and after it. -/
def Kern.commentedNote : Kern.SingleSpine where
  before := ["!!!COM: Anon".toList]
  header := "**kern".toList
  body := ["4c".toList]
  after := ["!!!ENC: Anon".toList]
  comment_before := by
    simp only [← Kern.fromFirst?_eq_none_iff]
    decide +kernel
  announced := List.prefix_rfl
  comment_after := by
    simp only [← Kern.fromFirst?_eq_none_iff]
    decide +kernel
  apart := by decide +kernel

/-- The note is counted once in the score and once in its voice. -/
theorem countMatches_singleSpine_commentedNote :
    readExpression (Pattern.quarterNote .c).compile.expression =
        .ok (Pattern.quarterNote .c).syntaxTree ∧
      Score.countMatches ⟨0, [], Kern.commentedNote.text⟩ (Pattern.quarterNote .c).syntaxTree
        .whole = 1 ∧
      Score.countMatches ⟨0, [], Kern.commentedNote.text⟩ (Pattern.quarterNote .c).syntaxTree
        .voices = 1 := by
  have hread : readExpression (Pattern.quarterNote .c).compile.expression =
      .ok (Pattern.quarterNote .c).syntaxTree := rfl
  have hwhole : Score.countMatches ⟨0, [], Kern.commentedNote.text⟩
      (Pattern.quarterNote .c).syntaxTree .whole = 1 := by decide +kernel
  have hequal : Score.countMatches ⟨0, [], Kern.commentedNote.text⟩
      (Pattern.quarterNote .c).syntaxTree .whole = Score.countMatches
        ⟨0, [], Kern.commentedNote.text⟩ (Pattern.quarterNote .c).syntaxTree .voices :=
    countMatches_singleSpine hread Kern.commentedNote rfl
  exact ⟨hread, hwhole, hequal.symm.trans hwhole⟩

end MotifSearch
