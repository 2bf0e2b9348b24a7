import MotifSearch.Proofs.Markup.Fragment
import MotifSearch.Proofs.Markup.Lowering
import MotifSearch.Proofs.Pattern.Meaning
import MotifSearch.Proofs.Search.Found

/-!
# What is found of a choice

Of the branches of a choice the first one that matches is taken, and a match of the first branches
that is empty is taken as well, where it covers nothing and is not reported. So the second part of a
choice is only found if the first part cannot be empty. What is found of the first part is always
found. This is so of two fragments with a choice mark between them.

## Main definitions

* `Pattern.ofChoice` — the pattern of some branches
* `Markup.eitherOf` — two fragments with a choice mark between them

## Main results

* `isFoundIn_ofChoice_append_iff` — when something is found of a choice of two parts
* `ReadsAs.eitherOf` — the elements of two fragments and of the choice mark between them
* `isFoundIn_eitherOf_iff` — when something is found of either of two fragments
-/

namespace MotifSearch

namespace Regex

/-- The depth of an expression as the rest of a choice. -/
private def restDepth (regex : Regex) : Nat :=
  if regex.isAlt then regex.depth else regex.depth + 1

private theorem depth_le_restDepth (regex : Regex) : regex.depth ≤ regex.restDepth := by
  rw [restDepth]
  split <;> omega

private theorem depth_alternatives_cons (branch : Regex) {branches : List Regex}
    (h : branches ≠ []) : (alternatives (branch :: branches)).depth =
      max (branch.depth + 1) (alternatives branches).restDepth := by
  obtain ⟨next, branches, rfl⟩ := List.exists_cons_of_ne_nil h
  rfl

private theorem restDepth_alternatives_cons (branch : Regex) {branches : List Regex}
    (h : branches ≠ []) : (alternatives (branch :: branches)).restDepth =
      max (branch.depth + 1) (alternatives branches).restDepth := by
  obtain ⟨next, branches, rfl⟩ := List.exists_cons_of_ne_nil h
  rfl

/-- A choice of two parts is nested deeper than both of them. -/
private theorem restDepth_alternatives_le {first second : List Regex} (hfirst : first ≠ [])
    (hsecond : second ≠ []) :
    (alternatives first).restDepth ≤ (alternatives (first ++ second)).depth ∧
      (alternatives second).restDepth ≤ (alternatives (first ++ second)).depth := by
  induction first with
  | nil => exact absurd rfl hfirst
  | cons branch first ih =>
    rw [List.cons_append, depth_alternatives_cons branch (by simp [hsecond])]
    cases first with
    | nil =>
      refine ⟨?_, Nat.le_max_right ..⟩
      rw [alternatives_singleton, restDepth]
      split <;> omega
    | cons next first =>
      obtain ⟨hle, hleSecond⟩ := ih (by simp)
      rw [restDepth_alternatives_cons branch (by simp)]
      have hrest := depth_le_restDepth (alternatives (next :: first ++ second))
      omega

theorem depth_ofBranches_le {first second : List (List Regex)} (hfirst : first ≠ [])
    (hsecond : second ≠ []) :
    (ofBranches first).depth ≤ (ofBranches (first ++ second)).depth ∧
      (ofBranches second).depth ≤ (ofBranches (first ++ second)).depth := by
  have hle := @restDepth_alternatives_le (first.map concat) (second.map concat)
    (by simpa using hfirst) (by simpa using hsecond)
  rw [← List.map_append] at hle
  exact ⟨Nat.le_trans (depth_le_restDepth _) hle.1, Nat.le_trans (depth_le_restDepth _) hle.2⟩

end Regex

namespace Pattern

/-- The pattern of the branches between choice marks. -/
def ofChoice (branches : List (List Pattern)) : Pattern :=
  sequence (ofBranches branches)

theorem pieces_ofChoice (branches : List (List Pattern)) :
    (ofChoice branches).pieces = branchesPieces branches := by
  rcases branches with _ | ⟨branch, _ | ⟨next, branches⟩⟩
  · rfl
  · rfl
  · exact List.append_nil _

theorem branchesPieces_cons (branch : List Pattern) {branches : List (List Pattern)}
    (h : branches ≠ []) :
    branchesPieces (branch :: branches) =
      sequencePieces branch ++ .bar :: branchesPieces branches := by
  obtain ⟨next, branches, rfl⟩ := List.exists_cons_of_ne_nil h
  rfl

theorem branchesPieces_append {first second : List (List Pattern)} (hfirst : first ≠ [])
    (hsecond : second ≠ []) :
    branchesPieces (first ++ second) = branchesPieces first ++ .bar :: branchesPieces second := by
  induction first with
  | nil => exact absurd rfl hfirst
  | cons branch first ih =>
    rw [List.cons_append, branchesPieces_cons branch (by simp [hsecond])]
    cases first with
    | nil => rfl
    | cons next first =>
      rw [ih (by simp), branchesPieces_cons branch (by simp), List.append_assoc, List.cons_append]

section Append

variable {first second : List (List Pattern)} (hfirst : first ≠ []) (hsecond : second ≠ [])
include hfirst hsecond

/-- A choice of two parts has the branches of both. -/
theorem branches_pieces_ofChoice_append :
    Piece.branches (ofChoice (first ++ second)).pieces =
      Piece.branches (ofChoice first).pieces ++ Piece.branches (ofChoice second).pieces := by
  rw [pieces_ofChoice, pieces_ofChoice, pieces_ofChoice, branchesPieces_append hfirst hsecond,
    Piece.branches_append, Piece.branches, joinBranches_nil_cons (Piece.branches_ne_nil _)]

/-- Both parts of a choice are nested as deep as the choice at most. -/
theorem depth_ofChoice_le :
    (ofChoice first).syntaxTree.depth ≤ (ofChoice (first ++ second)).syntaxTree.depth ∧
      (ofChoice second).syntaxTree.depth ≤ (ofChoice (first ++ second)).syntaxTree.depth := by
  simp only [syntaxTree, Piece.tree]
  rw [branches_pieces_ofChoice_append hfirst hsecond]
  exact Regex.depth_ofBranches_le (Piece.branches_ne_nil _) (Piece.branches_ne_nil _)

/-- The second part of a choice only counts if the first part cannot be empty. -/
theorem preferring_ofChoice_append : (ofChoice (first ++ second)).syntaxTree.preferring =
    if (ofChoice first).syntaxTree.nullable then (ofChoice first).syntaxTree.preferring
    else (ofChoice first).syntaxTree.preferring.either (ofChoice second).syntaxTree.preferring := by
  have hnullable : Regex.branchesNullable (Piece.branches (ofChoice first).pieces) =
      (ofChoice first).syntaxTree.nullable :=
    Regex.branchesNullable_eq (Regex.meaning_ofBranches (Piece.branches_ne_nil _)).symm
  simp only [syntaxTree, Piece.tree, Regex.preferring_ofBranches] at hnullable ⊢
  rw [branches_pieces_ofChoice_append hfirst hsecond, Regex.branchesPreferring_append, hnullable]
  split
  · rfl
  · next hfalse =>
    have hsame := hnullable.trans ((Bool.not_eq_true _).mp hfalse)
    rw [Regex.branchesPreferring_of_not_nullable hsame]

/-- Something is found of a choice of two parts if something is found of the first part, or if the
first part cannot be empty and something is found of the second part; unless the choice is nested
too deep. -/
theorem isFoundIn_ofChoice_append_iff (score : List Char) :
    (ofChoice (first ++ second)).IsFoundIn score ↔
      (ofChoice (first ++ second)).syntaxTree.depth ≤ Regex.depthLimit ∧
        ((ofChoice first).IsFoundIn score ∨
          (ofChoice first).syntaxTree.nullable = false ∧ (ofChoice second).IsFoundIn score) := by
  obtain ⟨hdepth, hdepthSecond⟩ := depth_ofChoice_le hfirst hsecond
  rw [isFoundIn_iff, isFoundIn_iff, isFoundIn_iff, preferring_ofChoice_append hfirst hsecond]
  refine and_congr_right fun hlimit => ?_
  simp only [Nat.le_trans hdepth hlimit, Nat.le_trans hdepthSecond hlimit, true_and]
  cases hnullable : (ofChoice first).syntaxTree.nullable with
  | true => simp
  | false => simpa using Meaning.occursIn_either

end Append

end Pattern

namespace Markup

open Xml (Element)

/-- Two fragments with a choice mark between them. -/
def eitherOf (first second : List Char) : List Char :=
  first ++ ("<query:or/>".toList ++ second)

/-- The choice mark. -/
def choiceMark : Element :=
  .mk ⟨some queryUri, "or".toList⟩ [] []

variable {first second : List Char} {before after : List Element}

/-- What begins with an angle bracket, and has no other in it, does not reach from one text into
the next tag. -/
private theorem isPrefixOf_append_eq_false {mark text rest : List Char} (hmark : '<' ∉ mark)
    (hne : text ≠ []) (h : ('<' :: mark).isPrefixOf text = false) :
    ('<' :: mark).isPrefixOf (text ++ '<' :: rest) = false := by
  rw [← Bool.not_eq_true, List.isPrefixOf_iff_prefix] at h ⊢
  intro hprefix
  have htext : text ++ ['<'] <+: text ++ '<' :: rest := by simp
  rcases Nat.lt_or_ge text.length ('<' :: mark).length with hlt | hge
  · have hle : (text ++ ['<']).length ≤ ('<' :: mark).length := by
      simpa [Nat.lt_succ_iff] using hlt
    obtain ⟨later, hlater⟩ := List.prefix_of_prefix_length_le htext hprefix hle
    obtain ⟨c, text, rfl⟩ := List.exists_cons_of_ne_nil hne
    exact hmark (by simp [← (List.cons.inj hlater).2])
  · exact h (List.prefix_of_prefix_length_le hprefix (List.prefix_append text _) hge)

/-- Two fragments with a choice mark between them are a fragment. -/
theorem isDocument_eitherOf (h : isDocument first = false) (second : List Char) :
    isDocument (eitherOf first second) = false := by
  have hmark : ∃ rest, "<query:or/>".toList ++ second = '<' :: 'q' :: rest := ⟨_, rfl⟩
  obtain ⟨rest, hrest⟩ := hmark
  simp only [isDocument, Bool.or_eq_false_iff] at h ⊢
  have htrim : Text.trimStart (eitherOf first second) =
      if (Text.trimStart first).isEmpty then '<' :: 'q' :: rest
      else Text.trimStart first ++ '<' :: 'q' :: rest := by
    rw [eitherOf, hrest]
    exact List.dropWhile_append
  rw [htrim]
  split
  · exact ⟨rfl, rfl⟩
  · next hne =>
    have hne : Text.trimStart first ≠ [] := by simpa using hne
    exact ⟨isPrefixOf_append_eq_false (by decide) hne h.1,
      isPrefixOf_append_eq_false (by decide) hne h.2⟩

theorem run_choiceMark (brackets : Nat) (elements : List Element) :
    (inLayer brackets elements).run Xml.plainReading "<query:or/>".toList =
      .ok (inLayer 0 (elements ++ [choiceMark])) := by
  rw [inLayer, inLayer, layerFrame_append]
  rfl

/-- Two fragments with a choice mark between them are read one after the other. -/
theorem ReadsAs.eitherOf (hfirst : ReadsAs first before) (hsecond : ReadsAs second after) :
    ReadsAs (eitherOf first second) (before ++ choiceMark :: after) := by
  obtain ⟨brackets, hfirst⟩ := hfirst
  obtain ⟨last, hsecond⟩ := hsecond.exists_run (before ++ [choiceMark])
  refine ⟨last, ?_⟩
  rw [Markup.eitherOf, Xml.Reader.run_append, hfirst]
  change Xml.Reader.run _ _ _ = _
  rw [Xml.Reader.run_append, run_choiceMark, List.append_cons before choiceMark after]
  exact hsecond

end Markup

namespace Pattern

open Markup (isDocument ReadsAs layer eitherOf choiceMark)

/-- A choice mark between elements joins their branches. -/
theorem branchesOfElements_append {before after : List Xml.Element}
    {first second : List (List Pattern)} (hfirst : branchesOfElements before = .ok first)
    (hsecond : branchesOfElements after = .ok second) :
    branchesOfElements (before ++ choiceMark :: after) = .ok (first ++ second) := by
  have hmark : Markup.kind choiceMark = .choice := by decide +kernel
  induction before generalizing first with
  | nil =>
    cases hfirst
    rw [List.nil_append, branchesOfElements_cons, if_pos hmark, hsecond]
    rfl
  | cons element before ih =>
    obtain ⟨others, hothers, hcases⟩ := branchesOfElements_cons_eq_ok hfirst
    rw [List.cons_append, branchesOfElements_cons, ih hothers]
    rcases hcases with ⟨hchoice, rfl⟩ | ⟨hchoice, pattern, hpattern, rfl⟩
    · rw [if_pos hchoice]
      rfl
    · obtain ⟨branch, others, rfl⟩ := List.exists_cons_of_ne_nil (branchesOfElements_ne_nil hothers)
      rw [if_neg hchoice, hpattern]
      rfl

theorem containsNote_ofChoice (branches : List (List Pattern)) :
    (ofChoice branches).containsNote = branchesContainNote branches :=
  congrArg Markup.Lowered.hasNote (sequence_ofBranches_lowered branches)

/-- The pattern of a layer is the choice of the branches of its elements. -/
theorem ofContainer_layer_eq_ok_iff {elements : List Xml.Element} {pattern : Pattern} :
    ofContainer (layer elements) = .ok pattern ↔ ∃ branches,
      branchesOfElements elements = .ok branches ∧ branchesContainNote branches = true ∧
        pattern = ofChoice branches := by
  have hchildren : (layer elements).children = elements := List.reverse_reverse elements
  rw [ofContainer, hchildren]
  constructor
  · intro h
    obtain ⟨branches, hbranches, h⟩ := Except.exists_of_bind_eq_ok h
    dsimp only at h
    split at h
    · next hnote =>
      cases h
      exact ⟨branches, hbranches, (containsNote_ofChoice branches).symm.trans hnote, rfl⟩
    · cases h
  · rintro ⟨branches, hbranches, hnote, rfl⟩
    rw [Except.bind_of_eq_ok hbranches]
    exact if_pos ((containsNote_ofChoice branches).trans hnote)

/-- Something is found of two fragments with a choice mark between them if something is found of the
first one, or if the first one cannot be empty and something is found of the second one; unless the
choice is nested too deep. -/
theorem isFoundIn_eitherOf_iff {first second : List Char} {firstPattern secondPattern : Pattern}
    (hfirst : isDocument first = false) (hsecond : isDocument second = false)
    (hfirstPattern : ofMarkup first = .ok firstPattern)
    (hsecondPattern : ofMarkup second = .ok secondPattern) :
    ∃ pattern, ofMarkup (eitherOf first second) = .ok pattern ∧ ∀ score,
      pattern.IsFoundIn score ↔ pattern.syntaxTree.depth ≤ Regex.depthLimit ∧
        (firstPattern.IsFoundIn score ∨
          firstPattern.syntaxTree.nullable = false ∧ secondPattern.IsFoundIn score) := by
  obtain ⟨before, hbefore, hfirstPattern⟩ := exists_readsAs_of_ofMarkup hfirst hfirstPattern
  obtain ⟨after, hafter, hsecondPattern⟩ := exists_readsAs_of_ofMarkup hsecond hsecondPattern
  obtain ⟨branches, hbranches, hnote, rfl⟩ := ofContainer_layer_eq_ok_iff.mp hfirstPattern
  obtain ⟨others, hothers, -, rfl⟩ := ofContainer_layer_eq_ok_iff.mp hsecondPattern
  refine ⟨ofChoice (branches ++ others), ?_, isFoundIn_ofChoice_append_iff
    (branchesOfElements_ne_nil hbranches) (branchesOfElements_ne_nil hothers)⟩
  rw [ofMarkup_of_readsAs (Markup.isDocument_eitherOf hfirst second) (hbefore.eitherOf hafter)]
  refine ofContainer_layer_eq_ok_iff.mpr
    ⟨_, branchesOfElements_append hbranches hothers, ?_, rfl⟩
  rw [branchesContainNote_eq_any] at hnote ⊢
  rw [List.any_append, hnote, Bool.true_or]

section Notes

open Markup (meiUri queryUri)

/-- A note with a letter and nothing else. -/
private def letterElement (letter : Char) : Xml.Element :=
  .mk ⟨some meiUri, "note".toList⟩ [(⟨none, "pname".toList⟩, [letter])] []

/-- A group that may be left out. -/
private def optionalElement (children : List Xml.Element) : Xml.Element :=
  .mk ⟨some queryUri, "group".toList⟩
    [(⟨none, "min-occurrences".toList⟩, ['0']), (⟨none, "max-occurrences".toList⟩, ['1'])] children

/-- A note in a group that may be left out. -/
def optionalNote : List Char :=
  "<query:group min-occurrences='0' max-occurrences='1'><note pname='c'/></query:group>".toList

private theorem readsAs_noteC : ReadsAs "<note pname='c'/>".toList [letterElement 'c'] := ⟨0, rfl⟩

private theorem readsAs_noteD : ReadsAs "<note pname='d'/>".toList [letterElement 'd'] := ⟨0, rfl⟩

set_option maxRecDepth 2000 in
private theorem readsAs_optionalNote :
    ReadsAs optionalNote [optionalElement [letterElement 'c']] := by
  unfold optionalNote
  rw [String.toList_ofList]
  exact ⟨0, rfl⟩

private theorem isDocument_optionalNote : isDocument optionalNote = false := by
  unfold optionalNote
  rw [String.toList_ofList]
  decide +kernel

/-- Either of two notes is found. -/
theorem isFoundIn_eitherOf_notes :
    ∃ pattern, ofMarkup (eitherOf "<note pname='c'/>".toList "<note pname='d'/>".toList) =
      .ok pattern ∧ pattern.IsFoundIn "4d\n".toList := by
  have hc : isDocument "<note pname='c'/>".toList = false := by decide +kernel
  have hd : isDocument "<note pname='d'/>".toList = false := by decide +kernel
  have hpatternC : ofMarkup "<note pname='c'/>".toList = .ok (ofChoice [[quarterNote .c]]) :=
    (ofMarkup_of_readsAs hc readsAs_noteC).trans rfl
  have hpatternD : ofMarkup "<note pname='d'/>".toList = .ok (ofChoice [[quarterNote .d]]) :=
    (ofMarkup_of_readsAs hd readsAs_noteD).trans rfl
  have heither : ofMarkup (eitherOf "<note pname='c'/>".toList "<note pname='d'/>".toList) =
      .ok (ofChoice [[quarterNote .c], [quarterNote .d]]) :=
    (ofMarkup_of_readsAs (Markup.isDocument_eitherOf hc _)
      (readsAs_noteC.eitherOf readsAs_noteD)).trans rfl
  obtain ⟨pattern, hpattern, hfound⟩ := isFoundIn_eitherOf_iff hc hd hpatternC hpatternD
  obtain rfl := Except.ok.inj (heither.symm.trans hpattern)
  have hnote : (ofChoice [[quarterNote .d]]).IsFoundIn "4d\n".toList := ⟨[⟨0, 3⟩], rfl, by simp⟩
  exact ⟨_, hpattern, (hfound _).mpr ⟨by decide +kernel, Or.inr ⟨by decide +kernel, hnote⟩⟩⟩

/-- A note that may be left out, or another note: the other note is not found, although it is found
on its own. -/
theorem not_isFoundIn_eitherOf :
    ofMarkup optionalNote = .ok (ofChoice [[group [quarterNote .c] ⟨some 0, some 1⟩]]) ∧
      ofMarkup "<note pname='d'/>".toList = .ok (ofChoice [[quarterNote .d]]) ∧
      ofMarkup (eitherOf optionalNote "<note pname='d'/>".toList) =
        .ok (ofChoice [[group [quarterNote .c] ⟨some 0, some 1⟩], [quarterNote .d]]) ∧
      locate "4d\n".toList (ofChoice [[quarterNote .d]]).compile.expression = .ok [⟨0, 3⟩] ∧
      locate "4d\n".toList (ofChoice [[group [quarterNote .c] ⟨some 0, some 1⟩],
        [quarterNote .d]]).compile.expression = .ok [] :=
  ⟨(ofMarkup_of_readsAs isDocument_optionalNote readsAs_optionalNote).trans rfl,
    (ofMarkup_of_readsAs (by decide +kernel) readsAs_noteD).trans rfl,
    (ofMarkup_of_readsAs (Markup.isDocument_eitherOf isDocument_optionalNote _)
      (readsAs_optionalNote.eitherOf readsAs_noteD)).trans rfl, rfl, rfl⟩

end Notes

end Pattern

end MotifSearch
