import MotifSearch.Proofs.Markup.Lowering
import MotifSearch.Proofs.Pattern.Canonical

/-!
# Patterns from markup are proper

No value of a duration attribute gives the denominator zero, and there is a branch before the first
choice mark even if nothing is in it. So every pattern that comes of markup is proper, and its
canonical text is as good as the pattern itself.

## Main results

* `isProper_of_ofMarkup` — patterns from markup are proper
* `canonical_faithful` — the canonical text tells what a pattern compiles to, and a proper pattern
-/

namespace MotifSearch

/-- A document with some content in its layer. -/
def Markup.layerDocument (content : String) : List Char :=
  ("<mei><music><body><mdiv><score><section><measure><staff><layer>" ++ content ++
    "</layer></staff></measure></section></score></mdiv></body></music></mei>").toList

open Markup (Kind kind layerDocument)
open Xml (Element)

theorem DurationCode.ne_zero_of_ofText? {text : List Char} {code : DurationCode}
    (h : ofText? text = some code) : code ≠ .denominator 0 := by
  rintro rfl
  simp only [ofText?] at h
  split at h
  · cases h
  · split at h
    · cases h
    · split at h
      · cases h
      · obtain ⟨n, hn, heq⟩ := Option.map_eq_some_iff.mp h
        cases heq
        simp at hn

namespace NotePattern

/-- A note that nothing is given for is a quarter note, and what is given is no denominator of
zero. -/
theorem isProper_of_ofElement {element : Element} {note : NotePattern}
    (h : ofElement element = .ok note) : note.IsProper := by
  rw [ofElement_eq] at h
  obtain rfl := Reading.eq_of_check_eq_ok h
  intro duration hduration
  simp only [implied, impliedDuration] at hduration
  split at hduration
  · cases hduration
  · cases hduration
    cases hgiven : given? .duration DurationCode.ofText? element with
    | none => simp
    | some code =>
      obtain ⟨text, -, hread⟩ := Option.bind_eq_some_iff.mp hgiven
      exact DurationCode.ne_zero_of_ofText? hread

end NotePattern

namespace Pattern

theorem allProper_ofBranches {branches : List (List Pattern)} (hne : branches ≠ [])
    (h : AllBranchesProper branches) : AllProper (ofBranches branches) := by
  rcases branches with _ | ⟨branch, _ | ⟨next, branches⟩⟩
  · exact absurd rfl hne
  · exact h.1
  · exact ⟨⟨hne, h⟩, trivial⟩

mutual

private theorem isProper_of_ofElement : (element : Element) → {pattern : Pattern} →
    ofElement element = .ok pattern → pattern.IsProper
  | .mk name attributes children, pattern, h => by
    have hchildren : ∀ branches, branchesOfElements children = .ok branches →
        AllProper (ofBranches branches) := fun branches hbranches =>
      allProper_ofBranches (branchesOfElements_ne_nil hbranches)
        (allBranchesProper_of_branchesOfElements children hbranches)
    rw [ofElement_eq] at h
    cases hkind : kind (.mk name attributes children) with
    | choice | unknown =>
      rw [hkind] at h
      cases h
    | note =>
      rw [hkind] at h
      obtain ⟨note, hnote, rfl⟩ := Except.exists_of_map_eq_ok h
      exact NotePattern.isProper_of_ofElement hnote
    | beam =>
      rw [hkind] at h
      obtain ⟨branches, hbranches, rfl⟩ := Except.exists_of_map_eq_ok h
      exact hchildren branches hbranches
    | group =>
      rw [hkind] at h
      obtain ⟨bounds, -, h⟩ := Except.exists_of_bind_eq_ok h
      obtain ⟨branches, hbranches, rfl⟩ := Except.exists_of_map_eq_ok h
      exact hchildren branches hbranches

private theorem allBranchesProper_of_branchesOfElements : (elements : List Element) →
    {branches : List (List Pattern)} → branchesOfElements elements = .ok branches →
    AllBranchesProper branches
  | [], branches, h => by
    cases h
    exact ⟨trivial, trivial⟩
  | element :: elements, branches, h => by
    obtain ⟨others, hothers, hbranches⟩ := branchesOfElements_cons_eq_ok h
    have hrest := allBranchesProper_of_branchesOfElements elements hothers
    rcases hbranches with ⟨-, rfl⟩ | ⟨-, pattern, hpattern, rfl⟩
    · exact ⟨trivial, hrest⟩
    · have hproper := isProper_of_ofElement element hpattern
      cases others with
      | nil => exact ⟨⟨hproper, trivial⟩, trivial⟩
      | cons branch others => exact ⟨⟨hproper, hrest.1⟩, hrest.2⟩

end

/-- Patterns from markup are proper. -/
theorem isProper_of_ofMarkup {markup : List Char} {pattern : Pattern}
    (h : ofMarkup markup = .ok pattern) : pattern.IsProper := by
  obtain ⟨root, -, h⟩ := Except.exists_of_bind_eq_ok h
  obtain ⟨container, -, h⟩ := Except.exists_of_bind_eq_ok h
  obtain ⟨branches, hbranches, h⟩ := Except.exists_of_bind_eq_ok h
  dsimp only at h
  split at h
  · cases h
    exact allProper_ofBranches (branchesOfElements_ne_nil hbranches)
      (allBranchesProper_of_branchesOfElements _ hbranches)
  · cases h

/-- Patterns with the same canonical text compile to the same expression and the same reports. If
no denominator in them is zero and no choice is without branches, then they are the same pattern;
and so it is with all patterns from markup. -/
theorem canonical_faithful :
    (∀ pattern other : Pattern, pattern.canonical = other.canonical →
      pattern.compile.expression = other.compile.expression ∧
        pattern.compile.diagnostics = other.compile.diagnostics) ∧
    (∀ pattern other : Pattern, pattern.IsProper → other.IsProper →
      pattern.canonical = other.canonical → pattern = other) ∧
    ∀ markup pattern, ofMarkup markup = .ok pattern → pattern.IsProper := by
  refine ⟨fun pattern other h => ?_, fun pattern other => eq_of_canonical_eq,
    fun markup pattern => isProper_of_ofMarkup⟩
  rw [compile_eq_of_canonical_eq h]
  exact ⟨rfl, rfl⟩

private theorem exists_of_map_toOption {markup text : List Char}
    (h : (ofMarkup markup).toOption.map canonical = some text) :
    ∃ pattern, ofMarkup markup = .ok pattern ∧ pattern.canonical = text := by
  cases hpattern : ofMarkup markup with
  | error e =>
    rw [hpattern] at h
    cases h
  | ok pattern =>
    rw [hpattern] at h
    exact ⟨pattern, rfl, Option.some.inj h⟩

/-- A note without a duration is the same pattern as a quarter note, and a denominator of zero
compiles like a breve. -/
theorem canonical_faithful_quarter_and_breve :
    (∃ pattern, ofMarkup (layerDocument "<note/>") = .ok pattern ∧
      ofMarkup (layerDocument "<note dur='4'/>") = .ok pattern) ∧
    (note ⟨.any, .exact ⟨.denominator 0, 0⟩⟩).compile.expression =
      (note ⟨.any, .exact ⟨.breve, 0⟩⟩).compile.expression := by
  obtain ⟨hcompile, htells, hproper⟩ := canonical_faithful
  have hsame : ∀ {markup other text : List Char},
      (ofMarkup markup).toOption.map canonical = some text →
      (ofMarkup other).toOption.map canonical = some text →
      ∃ pattern, ofMarkup markup = .ok pattern ∧ ofMarkup other = .ok pattern := by
    intro markup other text hmarkup hother
    obtain ⟨pattern, hpattern, hcanonical⟩ := exists_of_map_toOption hmarkup
    obtain ⟨second, hsecond, hequal⟩ := exists_of_map_toOption hother
    have heq := htells pattern second (hproper _ _ hpattern) (hproper _ _ hsecond)
      (hcanonical.trans hequal.symm)
    exact ⟨pattern, hpattern, by rw [hsecond, heq]⟩
  refine ⟨@hsame _ _ "[4/c5]".toList ?_ ?_, (hcompile _ _ (by decide +kernel)).1⟩
  all_goals
    rw [layerDocument, String.toList_append, String.toList_append, String.toList_ofList,
      String.toList_ofList, String.toList_ofList]
    decide +kernel

end Pattern

end MotifSearch
