import Mathlib.Data.List.Infix
import MotifSearch.Corpus.Basic
import MotifSearch.Proofs.Kern.Comments
import MotifSearch.Proofs.Pattern.Meaning
import MotifSearch.Proofs.Search.ControlRecords

/-!
# Voices of scores with comments

What is counted in the voices of a score does not depend on a comment after it, not even where the
comment becomes a line of the first voice: a match does not go on into a comment. It depends on a
comment in front of the score only if that has the mark of a kern spine, since then there is no
voice.

## Main results

* `Pattern.findAll_append_comment` — nothing is found in a comment at the end of a voice
* `voices_around_comment` — the voices of a score with a comment, and what is counted in them
* `voices_around_marked_comment` — comments that have the marks make a difference
-/

namespace MotifSearch

open Record (terminatedText)
open Kern (Spines IsComment IsLast kernSpine terminator voices)

namespace Kern

variable {comment lead : List Char}

theorem IsComment.isControl (h : IsComment comment) : Record.IsControl (comment ++ ['\n']) := by
  rw [← Record.isControl_iff h.whole]
  obtain ⟨rest, rfl⟩ := h.starts
  rfl

/-- A comment that is cut off after a terminator is a comment. -/
theorem IsComment.of_isLast (h : IsComment comment) (hlast : IsLast terminator comment lead) :
    IsComment (lead ++ terminator) where
  starts := List.prefix_of_prefix_length_le h.starts hlast.occurs (by simp [terminator])
  whole hmem := h.whole (hlast.occurs.subset hmem)
  single hmem := h.single (hlast.occurs.subset hmem)

/-- A voice is a text of lines. -/
theorem lineStartAfter_of_mem_voices {score text : List Char} (h : text ∈ voices score) :
    lineStartAfter true text = true := by
  obtain ⟨column, -, rfl⟩ := List.mem_map.mp (List.mem_filter.mp h).1
  rw [voice_eq_terminatedText, Record.lineStartAfter_terminatedText]

end Kern

namespace Pattern

variable {pattern : Pattern} {comment : List Char}

/-- Nothing is found in a comment at the end of a text of lines. -/
theorem findAll_append_comment {text : List Char} (h : IsComment comment)
    (htext : lineStartAfter true text = true) :
    pattern.syntaxTree.findAll (text ++ (comment ++ ['\n'])) = pattern.syntaxTree.findAll text := by
  have htab : '\t' ∉ comment ++ ['\n'] := by simp [h.single]
  rw [Regex.findAll_eq_spansFrom, Regex.findAll_eq_spansFrom]
  exact Regex.spansFrom_append_control pattern.leads_factored h.isControl
    (Regex.passesOver_control pattern.leads_factored h.isControl htab) htext

/-- As many matches are found in texts of lines of which the first one gains a comment. -/
theorem flatMap_findAll_modifyHead {texts : List (List Char)} (h : IsComment comment)
    (htexts : ∀ text ∈ texts, lineStartAfter true text = true) :
    (texts.modifyHead (· ++ (comment ++ ['\n']))).flatMap pattern.syntaxTree.findAll =
      texts.flatMap pattern.syntaxTree.findAll := by
  cases texts with
  | nil => rfl
  | cons text texts =>
    rw [List.modifyHead_cons, List.flatMap_cons, List.flatMap_cons,
      findAll_append_comment h (htexts text List.mem_cons_self)]

end Pattern

/-- What is counted in the voices does not depend on a comment after the score. -/
theorem countMatches_append_comment (pattern : Pattern) (spines : Spines) {comment : List Char}
    (h : IsComment comment) (id : UInt32) (title : List Char) :
    Score.countMatches ⟨id, title, spines.text ++ (comment ++ ['\n'])⟩ pattern.syntaxTree .voices =
      Score.countMatches ⟨id, title, spines.text⟩ pattern.syntaxTree .voices := by
  rw [Score.countMatches, Score.countMatches]
  dsimp only
  by_cases hterminator : terminator <:+: comment
  · obtain ⟨lead, hlast⟩ := Kern.exists_isLast hterminator
    rw [spines.voices_append_terminated h hlast]
    split
    · rw [Pattern.flatMap_findAll_modifyHead (h.of_isLast hlast)
        fun _ => Kern.lineStartAfter_of_mem_voices]
    · rfl
  · rw [spines.voices_append_comment h hterminator]

/-- The voices of a score with a comment in front of it or after it, and what is counted in them. -/
theorem voices_around_comment (spines : Spines) {comment : List Char} (h : IsComment comment) :
    ((¬ kernSpine <:+: comment →
        voices (comment ++ '\n' :: spines.text) = voices spines.text) ∧
      (kernSpine <:+: comment → voices (comment ++ '\n' :: spines.text) = []) ∧
      (¬ terminator <:+: comment →
        voices (spines.text ++ (comment ++ ['\n'])) = voices spines.text) ∧
      ∀ lead, IsLast terminator comment lead →
        voices (spines.text ++ (comment ++ ['\n'])) =
          if kernSpine <+: spines.header then
            (voices spines.text).modifyHead (· ++ (lead ++ terminator ++ ['\n']))
          else voices spines.text) ∧
    ∀ (pattern : Pattern) (regex : Regex), readExpression pattern.compile.expression = .ok regex →
      ∀ id title,
        Score.countMatches ⟨id, title, comment ++ '\n' :: spines.text⟩ regex .voices =
            (if kernSpine <:+: comment then 0
              else Score.countMatches ⟨id, title, spines.text⟩ regex .voices) ∧
          Score.countMatches ⟨id, title, spines.text ++ (comment ++ ['\n'])⟩ regex .voices =
            Score.countMatches ⟨id, title, spines.text⟩ regex .voices := by
  refine ⟨⟨spines.voices_comment h, spines.voices_hidden h, spines.voices_append_comment h,
    fun lead => spines.voices_append_terminated h⟩, fun pattern regex hread id title => ?_⟩
  obtain rfl := Pattern.eq_syntaxTree_of_read hread
  refine ⟨?_, countMatches_append_comment pattern spines h id title⟩
  rw [Score.countMatches, Score.countMatches]
  dsimp only
  split
  · next hspine => rw [spines.voices_hidden h hspine, List.flatMap_nil, List.length_nil]
  · next hnone => rw [spines.voices_comment h hnone]

/-- The spines of a score of one note with its dynamics. -/
def Kern.loudNote : Spines where
  header := "**kern\t**dynam".toList
  body := ["4c\tf".toList]
  last := "*-\t*-".toList
  announced := by decide +kernel
  terminated := by decide +kernel
  apart := by decide +kernel

/-- A comment that has both marks hides the voice in front of the score, and becomes a line of it
after the score, which does not change what is counted. -/
theorem voices_around_comment_loudNote :
    IsComment "!! **kern to *- and back".toList ∧
      readExpression (Pattern.quarterNote .c).compile.expression =
        .ok (Pattern.quarterNote .c).syntaxTree ∧
      voices ("!! **kern to *- and back".toList ++ '\n' :: Kern.loudNote.text) = [] ∧
      voices (Kern.loudNote.text ++ ("!! **kern to *- and back".toList ++ ['\n'])) =
        ["**kern\n4c\n*-\n!! **kern to *-\n".toList] ∧
      Score.countMatches ⟨0, [], Kern.loudNote.text ++
          ("!! **kern to *- and back".toList ++ ['\n'])⟩
        (Pattern.quarterNote .c).syntaxTree .voices = 1 := by
  have hcomment : IsComment "!! **kern to *- and back".toList :=
    ⟨by decide +kernel, by decide +kernel, by decide +kernel⟩
  obtain ⟨⟨-, hhidden, -, hterminated⟩, hcount⟩ := voices_around_comment Kern.loudNote hcomment
  obtain ⟨lead, hlast⟩ : ∃ lead, IsLast terminator "!! **kern to *- and back".toList lead :=
    Kern.exists_isLast ⟨"!! **kern to ".toList, " and back".toList, by decide +kernel⟩
  have hcut : lead ++ terminator = "!! **kern to *-".toList := by
    have hsome := Kern.uptoLast?_of_isLast hlast
    rw [← Option.some.injEq, ← hsome]
    decide +kernel
  have hread : readExpression (Pattern.quarterNote .c).compile.expression =
      .ok (Pattern.quarterNote .c).syntaxTree := rfl
  refine ⟨hcomment, hread, hhidden ?_, ?_, (hcount _ _ hread 0 []).2.trans (by decide +kernel)⟩
  · exact ⟨"!! ".toList, " to *- and back".toList, by decide +kernel⟩
  · rw [hterminated lead hlast, hcut]
    decide +kernel

/-- In front of the score the legend hides its voice, and after the score a comment that has a
terminator becomes a line of it. -/
theorem voices_around_marked_comment :
    (IsComment "!!!RDF**kern: @ = marked note".toList ∧
      voices ("!!!RDF**kern: @ = marked note".toList ++ '\n' :: Kern.loudNote.text) ≠
        voices Kern.loudNote.text ∧
      readExpression (Pattern.quarterNote .c).compile.expression =
        .ok (Pattern.quarterNote .c).syntaxTree ∧
      Score.countMatches ⟨0, [],
          "!!!RDF**kern: @ = marked note".toList ++ '\n' :: Kern.loudNote.text⟩
        (Pattern.quarterNote .c).syntaxTree .voices ≠
          Score.countMatches ⟨0, [], Kern.loudNote.text⟩ (Pattern.quarterNote .c).syntaxTree
            .voices) ∧
    IsComment "!!*-".toList ∧
      voices (Kern.loudNote.text ++ ("!!*-".toList ++ ['\n'])) ≠ voices Kern.loudNote.text := by
  refine ⟨⟨⟨?_, ?_, ?_⟩, ?_, rfl, ?_⟩, ⟨?_, ?_, ?_⟩, ?_⟩ <;> decide +kernel

end MotifSearch
