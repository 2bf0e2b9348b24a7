import MotifSearch.Proofs.Pattern.Kept
import MotifSearch.Proofs.Search.Found

/-!
# What is found with other bounds

A pattern that is found with its bounds taken at their word is found as it is compiled, where any
number of occurrences stands for bounds without a quantifier of their own. But a choice is not made
again: a branch that can be empty only because of that is taken where it matches nothing, and the
branches after it are lost.

## Main results

* `isFoundIn_of_literalTree` — what is found at its word is found as it is compiled, if no branches
  are lost
* `not_isFoundIn_of_literalTree` — a branch that is lost
-/

namespace MotifSearch

/-- What ends with a word of a meaning stands where that word does. -/
theorem Meaning.OccursIn.of_endOf {meaning : Meaning} {text : List Char}
    (h : meaning.endOf.OccursIn text) : meaning.OccursIn text := by
  obtain ⟨before, _, after, rfl, front, last, rfl, hlast⟩ := h
  exact ⟨before ++ front, last, after, by simp, by rwa [lineStartAfter_append]⟩

namespace Pattern

/-- What is found with the bounds taken at their word is found as it is compiled, unless a choice
loses a branch or the expression is nested too deep. -/
theorem isFoundIn_of_literalTree {pattern : Pattern} {score : List Char}
    (hdepth : pattern.syntaxTree.depth ≤ Regex.depthLimit) (hkeeps : pattern.KeepsChoices)
    (hfound : pattern.literalTree.findAll score ≠ []) : pattern.IsFoundIn score := by
  rw [Regex.findAll_ne_nil_iff pattern.settled_literalTree] at hfound
  exact isFoundIn_iff.mpr ⟨hdepth, (hfound.mono (preferring_literalTree_le hkeeps)).of_endOf⟩

/-- Two or three notes and then another one. -/
def twoOrThree : Pattern :=
  sequence [group [quarterNote .c] ⟨some 2, some 3⟩, quarterNote .d]

/-- Two or three notes and then another one are found at their word, and so as they are compiled. -/
theorem isFoundIn_of_literalTree_twoOrThree :
    twoOrThree.literalTree.findAll "4c\n4c\n4d\n".toList ≠ [] ∧
      twoOrThree.IsFoundIn "4c\n4c\n4d\n".toList := by
  have hfound : twoOrThree.literalTree.findAll "4c\n4c\n4d\n".toList ≠ [] := by decide +kernel
  exact ⟨hfound, isFoundIn_of_literalTree (by decide +kernel) (by decide +kernel) hfound⟩

/-- One note exactly, or another one. -/
def onceOrOther : Pattern :=
  sequence [alternation [[group [quarterNote .c] ⟨some 1, some 1⟩], [quarterNote .d]]]

/-- The other note is found at its word, but not as it is compiled, where the first branch can be
empty. -/
theorem not_isFoundIn_of_literalTree :
    onceOrOther.literalTree.findAll "4d\n".toList = [⟨0, 3⟩] ∧
      locate "4d\n".toList onceOrOther.compile.expression = .ok [] ∧
      ¬ onceOrOther.KeepsChoices := by
  decide +kernel

end Pattern

end MotifSearch
