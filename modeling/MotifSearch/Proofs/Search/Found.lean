import MotifSearch.Proofs.Pattern.Preference
import MotifSearch.Proofs.Regex.Widening
import MotifSearch.Proofs.Search.Spans

/-!
# Where something is found

A search for a settled expression finds something exactly where the expression prefers some word to
the empty one. Which of several words is found first and what is passed over after it does not
matter for that.

## Main definitions

* `Meaning.OccursIn` — a word of a meaning stands somewhere in a text
* `Pattern.IsFoundIn` — a search for a pattern finds something

## Main results

* `Regex.findAll_ne_nil_iff`, `Pattern.isFoundIn_iff` — when something is found
-/

namespace MotifSearch

/-- A word of a meaning stands somewhere in a text. -/
def Meaning.OccursIn (meaning : Meaning) (text : List Char) : Prop :=
  ∃ before word after, text = before ++ (word ++ after) ∧
    meaning (lineStartAfter true before) word after

namespace Meaning

variable {first second : Meaning} {text : List Char}

theorem occursIn_either :
    (first.either second).OccursIn text ↔ first.OccursIn text ∨ second.OccursIn text := by
  constructor
  · rintro ⟨before, word, after, rfl, h | h⟩
    · exact Or.inl ⟨before, word, after, rfl, h⟩
    · exact Or.inr ⟨before, word, after, rfl, h⟩
  · rintro (⟨before, word, after, rfl, h⟩ | ⟨before, word, after, rfl, h⟩)
    · exact ⟨before, word, after, rfl, Or.inl h⟩
    · exact ⟨before, word, after, rfl, Or.inr h⟩

theorem OccursIn.mono (h : first.OccursIn text) (hle : first ≤ second) : second.OccursIn text := by
  obtain ⟨before, word, after, rfl, hword⟩ := h
  exact ⟨before, word, after, rfl, hle _ _ _ hword⟩

end Meaning

/-- Something is found in a text if a word that is preferred to the empty one stands there. -/
theorem Regex.findAll_ne_nil_iff {regex : Regex} {text : List Char} (h : Settled regex) :
    regex.findAll text ≠ [] ↔ regex.preferring.OccursIn text := by
  rw [findAll_eq_spansFrom]
  constructor
  · intro hfound
    obtain ⟨span, hspan⟩ := List.exists_mem_of_ne_nil _ hfound
    obtain ⟨before, word, after, rfl, -, hne, hlength⟩ := exists_preferred_of_mem_spansFrom hspan
    have hpreferring := preferring_of_preferredLength h.factored hne hlength
    rw [preferring_factored h] at hpreferring
    exact ⟨before, word, after, rfl, hpreferring⟩
  · rintro ⟨before, word, after, rfl, hpreferring⟩
    rw [← preferring_factored h] at hpreferring
    obtain ⟨more, hmore⟩ := exists_preferredLength_of_preferring h.factored hpreferring
    exact spansFrom_ne_nil hmore

namespace Pattern

/-- A search for a pattern finds something in a score. -/
def IsFoundIn (pattern : Pattern) (score : List Char) : Prop :=
  ∃ spans, locate score pattern.compile.expression = .ok spans ∧ spans ≠ []

variable {pattern : Pattern} {score : List Char}

/-- A pattern is found where its tree is, unless the expression is nested too deep. -/
theorem isFoundIn_iff_findAll : pattern.IsFoundIn score ↔
    pattern.syntaxTree.depth ≤ Regex.depthLimit ∧ pattern.syntaxTree.findAll score ≠ [] := by
  rw [IsFoundIn, locate_compile, ← Regex.findAll_eq_spansFrom]
  split
  · next hdepth => simp [hdepth]
  · next hdepth => simp [hdepth]

/-- A pattern is found where something that it prefers to the empty match stands, unless the
expression is nested too deep. -/
theorem isFoundIn_iff : pattern.IsFoundIn score ↔
    pattern.syntaxTree.depth ≤ Regex.depthLimit ∧
      pattern.syntaxTree.preferring.OccursIn score := by
  rw [isFoundIn_iff_findAll, Regex.findAll_ne_nil_iff pattern.settled_syntaxTree]

end Pattern

end MotifSearch
