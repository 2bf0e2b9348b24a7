import MotifSearch.Proofs.Markup.Readings

/-!
# Markup lowered in one pass

The match expression of a pattern can be written down while its elements are visited one after the
other: a note by its fragment, a choice mark by a bar, a group by its brackets with its suffix, and
a beam by nothing of its own. A pattern tree is put together by splitting siblings at the choice
marks, and its expression is the same text. Both fail for the same reason.

## Main definitions

* `Markup.Kind`, `Markup.kind` — what an element is in a pattern
* `Markup.visited` — the elements that are visited, an element before what is in it
* `Markup.inlineText` — the text that is written for an element
* `Markup.fault?`, `Markup.reports` — what is wrong with an element, and what is reported about it

## Main results

* `lowered_ofElement` — a pattern is what is written in one pass
* `compile_ofDocument` — the same for the pattern of a document
-/

namespace MotifSearch

open Xml (Element)

namespace Markup

/-- What an element is in a pattern. -/
inductive Kind where
  | note
  | beam
  | group
  | choice
  | unknown
  deriving DecidableEq

/-- What an element is, by its local name and by whether it belongs to the query vocabulary. -/
def kind (element : Element) : Kind :=
  if isQuery element then
    if localName element = "group".toList then .group
    else if localName element = "or".toList then .choice
    else .unknown
  else if localName element = "note".toList then .note
  else if localName element = "beam".toList then .beam
  else .unknown

mutual

/-- The elements that are visited, an element before what is in it. Only beams and groups are
entered. -/
def visited : Element → List Element
  | element@(.mk _ _ children) =>
    match kind element with
    | .beam | .group => element :: visitedAll children
    | .note | .choice | .unknown => [element]

/-- The elements that are visited, in the order of the document. -/
def visitedAll : List Element → List Element
  | [] => []
  | element :: elements => visited element ++ visitedAll elements

end

mutual

/-- What is written for an element. -/
def inlineText : Element → List Char
  | element@(.mk _ _ children) =>
    match kind element with
    | .note => (NotePattern.implied element).expression
    | .beam => inlineTexts children
    | .group =>
      ['('] ++ inlineTexts children ++ [')'] ++ (Bounds.implied element).usedQuantifier.suffix
    | .choice => ['|']
    | .unknown => []

/-- What is written for elements, one after the other. -/
def inlineTexts : List Element → List Char
  | [] => []
  | element :: elements => inlineText element ++ inlineTexts elements

end

/-- What is read of an element. -/
def readings (element : Element) : List Reading :=
  match kind element with
  | .note => NotePattern.readings element
  | .group => Bounds.readings element
  | .beam | .choice | .unknown => []

/-- What is wrong with an element: that it is unknown, or the first value that is rejected. -/
def fault? (element : Element) : Option PatternError :=
  if kind element = .unknown then some (.unknownElement (displayName element))
  else (readings element).findSome? Reading.error?

/-- What is reported about an element: bounds without a quantifier, or the quarter sharp of a note
whose pitch and accidental are given. -/
def reports (element : Element) : List Diagnostic :=
  match kind element with
  | .note =>
    match (NotePattern.implied element).pitch with
    | .exact ⟨_, _, .exact .quarterSharp⟩ =>
      [(Fallback.unspellableAccidental .quarterSharp).diagnostic]
    | _ => []
  | .group =>
    if (Bounds.implied element).quantifier? = none then
      [(Fallback.unsupportedOccurrences (Bounds.implied element)).diagnostic]
    else []
  | .beam | .choice | .unknown => []

/-- Whether nothing is wrong with an element: it is known, and all values that are read are
accepted. -/
theorem fault?_eq_none_iff {element : Element} : fault? element = none ↔
    kind element ≠ .unknown ∧ ∀ reading ∈ readings element, reading.accepted = true := by
  rw [fault?]
  split
  · next h => simp [h]
  · next h => simp [h, List.findSome?_eq_none_iff]

/-- What comes of elements: the text, the reports, and whether there is a note. -/
structure Lowered where
  text : List Char
  diagnostics : List Diagnostic
  hasNote : Bool

/-- What comes of elements and then of others. -/
def Lowered.append (first second : Lowered) : Lowered :=
  ⟨first.text ++ second.text, first.diagnostics ++ second.diagnostics,
    first.hasNote || second.hasNote⟩

theorem Lowered.nil_append (result : Lowered) : append ⟨[], [], false⟩ result = result := rfl

/-- What comes of the elements that have been visited: the first fault, or else what has been
written. -/
def lowered (seen : List Element) (text : List Char) : Except PatternError Lowered :=
  match seen.findSome? fault? with
  | some error => .error error
  | none => .ok ⟨text, seen.flatMap reports, seen.any (kind · = .note)⟩

variable {seen : List Element} {text : List Char} {element : Element}

/-- What comes of something, given that it is what comes of the elements that have been visited. -/
theorem lowered_cases {α : Type} {result : Except PatternError α} {f : α → Lowered}
    (h : result.map f = lowered seen text) :
    (∃ error, result = .error error ∧ seen.findSome? fault? = some error) ∨
      ∃ a, result = .ok a ∧ seen.findSome? fault? = none ∧
        f a = ⟨text, seen.flatMap reports, seen.any (kind · = .note)⟩ := by
  unfold lowered at h
  cases hfault : seen.findSome? fault? with
  | some error =>
    rw [hfault] at h
    cases result with
    | error other => exact Or.inl ⟨other, rfl, congrArg some (Except.error.inj h).symm⟩
    | ok a => cases h
  | none =>
    rw [hfault] at h
    cases result with
    | error other => cases h
    | ok a => exact Or.inr ⟨a, rfl, rfl, Except.ok.inj h⟩

theorem lowered_of_some {error : PatternError} (h : seen.findSome? fault? = some error) :
    lowered seen text = .error error := by
  rw [lowered, h]

theorem lowered_of_none (h : seen.findSome? fault? = none) :
    lowered seen text = .ok ⟨text, seen.flatMap reports, seen.any (kind · = .note)⟩ := by
  rw [lowered, h]

theorem visited_of_choice (h : kind element = .choice) : visited element = [element] := by
  cases element
  rw [visited, h]

theorem inlineText_of_choice (h : kind element = .choice) : inlineText element = ['|'] := by
  cases element
  rw [inlineText, h]

theorem isChoice_iff : isChoice element = true ↔ kind element = .choice := by
  rw [isChoice, kind, Bool.and_eq_true, beq_iff_eq]
  constructor
  · rintro ⟨hquery, hname⟩
    rw [if_pos hquery, hname, if_neg (by decide), if_pos rfl]
  · intro h
    split at h
    · next hquery =>
      split at h
      · cases h
      · split at h
        · next hname => exact ⟨hquery, hname⟩
        · cases h
    · split at h
      · cases h
      · split at h <;> cases h

/-- What comes of elements and then of others is reported in this order. -/
theorem lowered_append {first second : List Element} {text other : List Char} :
    lowered (first ++ second) (text ++ other) =
      (lowered first text).bind fun result => (lowered second other).map result.append := by
  unfold lowered
  rw [List.findSome?_append]
  cases first.findSome? fault? with
  | some error => rfl
  | none =>
    rw [Option.none_or]
    cases second.findSome? fault? with
    | some error => rfl
    | none =>
      rw [List.flatMap_append, List.any_append]
      rfl

/-- What comes of a single element that is known. -/
theorem lowered_singleton (h : kind element ≠ .unknown) :
    lowered [element] text =
      Reading.check (readings element) ⟨text, reports element, kind element = .note⟩ := by
  rw [lowered, Reading.check, List.findSome?_singleton, fault?, if_neg h]
  cases (readings element).findSome? Reading.error? with
  | some error => rfl
  | none => simp

end Markup

open Markup (Lowered lowered lowered_cases lowered_of_some lowered_of_none kind visited visitedAll
  inlineText inlineTexts fault? reports readings)

namespace Pattern

/-- What comes of a pattern. -/
def lowered (pattern : Pattern) : Lowered :=
  ⟨pattern.expression, pattern.fallbacks.map Fallback.diagnostic, pattern.containsNote⟩

/-- What comes of the branches of a choice. -/
def branchesLowered (branches : List (List Pattern)) : Lowered :=
  ⟨branchesExpression branches, (branchesFallbacks branches).map Fallback.diagnostic,
    branchesContainNote branches⟩

/-- Where there is one branch only, its children are those of the node. -/
theorem sequence_ofBranches_lowered (branches : List (List Pattern)) :
    (sequence (ofBranches branches)).lowered = branchesLowered branches := by
  match branches with
  | [branch] =>
    simp [ofBranches, lowered, branchesLowered, expression, branchesExpression, fallbacks,
      branchesFallbacks, containsNote, branchesContainNote]
  | [] | _ :: _ :: _ =>
    simp [ofBranches, lowered, branchesLowered, expression, sequenceExpression, fallbacks,
      sequenceFallbacks, containsNote, anyContainsNote]

theorem group_ofBranches_lowered (branches : List (List Pattern)) (bounds : Bounds) :
    (group (ofBranches branches) bounds).lowered =
      Lowered.append ⟨['('], bounds.fallbacks.map Fallback.diagnostic, false⟩
        ((branchesLowered branches).append
          ⟨[')'] ++ bounds.usedQuantifier.suffix, [], false⟩) := by
  rw [← sequence_ofBranches_lowered]
  simp [lowered, Lowered.append, expression, fallbacks, containsNote]

theorem consBranch_lowered (pattern : Pattern) (branches : List (List Pattern)) :
    branchesLowered (consBranch pattern branches) =
      pattern.lowered.append (branchesLowered branches) := by
  cases branches with
  | nil =>
    simp [consBranch, branchesLowered, lowered, Lowered.append, branchesExpression,
      sequenceExpression, branchesFallbacks, sequenceFallbacks, branchesContainNote,
      anyContainsNote]
  | cons branch branches =>
    cases branches <;>
      simp [consBranch, branchesLowered, lowered, Lowered.append, branchesExpression,
        sequenceExpression, branchesFallbacks, sequenceFallbacks, branchesContainNote,
        anyContainsNote, Bool.or_assoc]

/-- A branch with nothing in it, and then the others. -/
theorem branchesLowered_nil_cons {branches : List (List Pattern)} (h : branches ≠ []) :
    branchesLowered ([] :: branches) =
      Lowered.append ⟨['|'], [], false⟩ (branchesLowered branches) := by
  cases branches with
  | nil => exact absurd rfl h
  | cons branch branches =>
    simp [branchesLowered, Lowered.append, branchesExpression, sequenceExpression,
      branchesFallbacks, sequenceFallbacks, branchesContainNote, anyContainsNote]

/-- A choice mark begins another branch, and everything else joins the first branch. -/
theorem branchesOfElements_cons (element : Element) (elements : List Element) :
    branchesOfElements (element :: elements) =
      if kind element = .choice then (branchesOfElements elements).map ([] :: ·)
      else (ofElement element).bind fun pattern =>
        (branchesOfElements elements).map (consBranch pattern) := by
  rw [branchesOfElements]
  simp only [Markup.isChoice_iff]
  split
  · cases branchesOfElements elements <;> rfl
  · cases ofElement element with
    | error e => rfl
    | ok pattern => cases branchesOfElements elements <;> rfl

/-- The branches of elements come of the first element and of the branches of the others. -/
theorem branchesOfElements_cons_eq_ok {element : Element} {elements : List Element}
    {branches : List (List Pattern)} (h : branchesOfElements (element :: elements) = .ok branches) :
    ∃ others, branchesOfElements elements = .ok others ∧
      (kind element = .choice ∧ branches = [] :: others ∨
        kind element ≠ .choice ∧ ∃ pattern, ofElement element = .ok pattern ∧
          branches = consBranch pattern others) := by
  rw [branchesOfElements_cons] at h
  split at h
  · next hchoice =>
    obtain ⟨others, hothers, rfl⟩ := Except.exists_of_map_eq_ok h
    exact ⟨others, hothers, Or.inl ⟨hchoice, rfl⟩⟩
  · next hchoice =>
    obtain ⟨pattern, hpattern, h⟩ := Except.exists_of_bind_eq_ok h
    obtain ⟨others, hothers, rfl⟩ := Except.exists_of_map_eq_ok h
    exact ⟨others, hothers, Or.inr ⟨hchoice, pattern, hpattern, rfl⟩⟩

/-- There is a branch before the first choice mark, even if nothing is in it. -/
theorem branchesOfElements_ne_nil {elements : List Element} {branches : List (List Pattern)}
    (h : branchesOfElements elements = .ok branches) : branches ≠ [] := by
  cases elements with
  | nil =>
    cases h
    simp
  | cons element elements =>
    obtain ⟨others, -, ⟨-, rfl⟩ | ⟨-, pattern, -, rfl⟩⟩ := branchesOfElements_cons_eq_ok h
    · simp
    · cases others <;> simp [consBranch]

/-- What a pattern is, by the kind of its element. -/
theorem ofElement_eq (element : Element) :
    ofElement element = match kind element with
      | .note => (NotePattern.ofElement element).map note
      | .beam => (branchesOfElements element.children).map fun branches =>
          sequence (ofBranches branches)
      | .group => (Bounds.ofElement element).bind fun bounds =>
          (branchesOfElements element.children).map fun branches =>
            group (ofBranches branches) bounds
      | .choice | .unknown => .error (.unknownElement (Markup.displayName element)) := by
  obtain ⟨name, attributes, children⟩ := element
  rw [ofElement, kind]
  by_cases hquery : Markup.isQuery (.mk name attributes children) = true
  · rw [if_pos hquery, if_pos hquery]
    by_cases hgroup : Markup.localName (.mk name attributes children) = "group".toList
    · rw [if_pos hgroup, if_pos hgroup]
      rfl
    · rw [if_neg hgroup, if_neg hgroup]
      by_cases hchoice : Markup.localName (.mk name attributes children) = "or".toList
      · rw [if_pos hchoice]
      · rw [if_neg hchoice]
  · rw [if_neg hquery, if_neg hquery]
    by_cases hnote : Markup.localName (.mk name attributes children) = "note".toList
    · rw [if_pos hnote, if_pos hnote]
      rfl
    · rw [if_neg hnote, if_neg hnote]
      by_cases hbeam : Markup.localName (.mk name attributes children) = "beam".toList
      · rw [if_pos hbeam, if_pos hbeam]
        rfl
      · rw [if_neg hbeam, if_neg hbeam]

/-- The fallback of a note is what is reported about its element. -/
theorem fallbacks_implied {element : Element} (h : kind element = .note) :
    (NotePattern.implied element).fallbacks.map Fallback.diagnostic = reports element := by
  rw [NotePattern.fallbacks, reports, h]
  cases (NotePattern.implied element).pitch with
  | any => rfl
  | exact pitch =>
    obtain ⟨letter, octave, _ | accidental⟩ := pitch
    · rfl
    · cases accidental <;> rfl

/-- The fallback of bounds is what is reported about their element. -/
theorem bounds_fallbacks_implied {element : Element} (h : kind element = .group) :
    (Bounds.implied element).fallbacks.map Fallback.diagnostic = reports element := by
  rw [Bounds.fallbacks, reports, h]
  cases (Bounds.implied element).quantifier? <;> simp

mutual

/-- A pattern is what is written for its element in one pass. -/
theorem lowered_ofElement : (element : Element) → kind element ≠ .choice →
    (ofElement element).map Pattern.lowered = Markup.lowered (visited element) (inlineText element)
  | .mk name attributes children, hchoice => by
    have hchildren := lowered_branchesOfElements children
    rw [ofElement_eq, visited, inlineText]
    cases hkind : kind (.mk name attributes children) with
    | choice => exact absurd hkind hchoice
    | unknown =>
      have hfault : fault? (.mk name attributes children) =
          some (.unknownElement (Markup.displayName (.mk name attributes children))) :=
        if_pos hkind
      exact (lowered_of_some (by simp [hfault])).symm
    | note =>
      rw [Markup.lowered_singleton (by rw [hkind]; decide), readings, hkind,
        ← fallbacks_implied hkind, NotePattern.ofElement_eq]
      simp only [Reading.map_check]
      rfl
    | beam =>
      have hhead : Markup.lowered [.mk name attributes children] [] = .ok ⟨[], [], false⟩ := by
        rw [Markup.lowered_singleton (by rw [hkind]; decide), readings, reports, hkind]
        rfl
      dsimp only
      rw [← List.singleton_append, ← List.nil_append (inlineTexts children),
        Markup.lowered_append, hhead, ← hchildren]
      change Except.map _ (Except.map _ (branchesOfElements children)) =
        Except.map _ (Except.map _ (branchesOfElements children))
      cases branchesOfElements children with
      | error e => rfl
      | ok branches =>
        exact congrArg Except.ok
          ((sequence_ofBranches_lowered branches).trans (Lowered.nil_append _).symm)
    | group =>
      -- The bounds are read first, then the children.
      have hhead : Markup.lowered [.mk name attributes children] ['('] =
          Reading.check (Bounds.readings (.mk name attributes children))
            ⟨['('], (Bounds.implied (.mk name attributes children)).fallbacks.map
              Fallback.diagnostic, false⟩ := by
        rw [Markup.lowered_singleton (by rw [hkind]; decide), readings, hkind,
          bounds_fallbacks_implied hkind]
        rfl
      have hlast : Markup.lowered [] ([')'] ++
          (Bounds.implied (.mk name attributes children)).usedQuantifier.suffix) =
            .ok ⟨[')'] ++ (Bounds.implied (.mk name attributes children)).usedQuantifier.suffix,
              [], false⟩ := rfl
      dsimp only
      rw [← List.singleton_append, ← List.append_nil (visitedAll children), List.append_assoc,
        List.append_assoc, Markup.lowered_append, Markup.lowered_append, hhead, hlast, ← hchildren,
        Bounds.ofElement_eq, Reading.check, Reading.check]
      cases (Bounds.readings (.mk name attributes children)).findSome? Reading.error? with
      | some error => rfl
      | none =>
        change Except.map _ (Except.map _ (branchesOfElements children)) =
          Except.map _ (Except.bind (Except.map _ (branchesOfElements children)) _)
        cases branchesOfElements children with
        | error e => rfl
        | ok branches =>
          exact congrArg Except.ok (group_ofBranches_lowered branches _)

/-- The branches of a choice are what is written for the elements in one pass. -/
theorem lowered_branchesOfElements : (elements : List Element) →
    (branchesOfElements elements).map branchesLowered =
      Markup.lowered (visitedAll elements) (inlineTexts elements)
  | [] => rfl
  | element :: elements => by
    have helements := lowered_branchesOfElements elements
    rw [branchesOfElements_cons, visitedAll, inlineTexts]
    split
    · next hchoice =>
      have hhead : Markup.lowered [element] ['|'] = .ok ⟨['|'], [], false⟩ := by
        rw [Markup.lowered_singleton (by rw [hchoice]; decide), readings, reports, hchoice]
        rfl
      rw [Markup.visited_of_choice hchoice, Markup.inlineText_of_choice hchoice,
        Markup.lowered_append, hhead, ← helements]
      cases hbranches : branchesOfElements elements with
      | error e => rfl
      | ok branches =>
        exact congrArg Except.ok (branchesLowered_nil_cons (branchesOfElements_ne_nil hbranches))
    · next hchoice =>
      have helement := lowered_ofElement element hchoice
      rw [Markup.lowered_append, ← helement, ← helements]
      cases ofElement element with
      | error e => rfl
      | ok pattern =>
        cases branchesOfElements elements with
        | error e => rfl
        | ok branches => exact congrArg Except.ok (consBranch_lowered pattern branches)

end

/-- The pattern of a container: an element is at fault, or there is no note, or else the pattern is
what is written in one pass. -/
theorem ofContainer_cases (container : Element) :
    (∃ error, (visitedAll container.children).findSome? fault? = some error ∧
        ofContainer container = .error error) ∨
      (visitedAll container.children).findSome? fault? = none ∧
        ((¬ ∃ element ∈ visitedAll container.children, kind element = .note) ∧
            ofContainer container = .error .empty ∨
          (∃ element ∈ visitedAll container.children, kind element = .note) ∧
            ∃ pattern, ofContainer container = .ok pattern ∧
              pattern.expression = inlineTexts container.children ∧
              pattern.fallbacks.map Fallback.diagnostic =
                (visitedAll container.children).flatMap reports) := by
  rw [ofContainer]
  rcases lowered_cases (lowered_branchesOfElements container.children) with
    ⟨error, hbranches, hfault⟩ | ⟨branches, hbranches, hfault, hlowered⟩
  · exact Or.inl ⟨error, hfault, by rw [hbranches]; rfl⟩
  · rw [← sequence_ofBranches_lowered] at hlowered
    have hnote : (sequence (ofBranches branches)).containsNote = true ↔
        ∃ element ∈ visitedAll container.children, kind element = .note := by
      rw [show (sequence (ofBranches branches)).containsNote = _ from
        congrArg Lowered.hasNote hlowered]
      simp
    refine Or.inr ⟨hfault, ?_⟩
    rw [hbranches, ← hnote]
    by_cases h : (sequence (ofBranches branches)).containsNote = true
    · exact Or.inr ⟨h, _, if_pos h, congrArg Lowered.text hlowered,
        congrArg Lowered.diagnostics hlowered⟩
    · exact Or.inl ⟨h, if_neg h⟩

/-- The pattern of a document compiles to what is written while its elements are visited, and to the
reports about them in the same order. There is a pattern if all elements are known, all values that
are read are accepted and one of the elements is a note; otherwise the first fault is the error. -/
theorem compile_ofDocument {document : List Char} {root container : Element}
    (hroot : Markup.parse document = .ok root)
    (hcontainer : Markup.container root = .ok container) :
    ((∃ compiled, (ofDocument document).map compile = .ok compiled) ↔
        (∀ element ∈ visitedAll container.children, kind element ≠ .unknown ∧
          ∀ reading ∈ readings element, reading.accepted = true) ∧
        ∃ element ∈ visitedAll container.children, kind element = .note) ∧
      (∀ compiled, (ofDocument document).map compile = .ok compiled →
        compiled.expression = inlineTexts container.children ∧
          compiled.diagnostics = (visitedAll container.children).flatMap reports) ∧
      ∀ error, (ofDocument document).map compile = .error error →
        error = ((visitedAll container.children).findSome? fault?).getD .empty := by
  have hdocument : ofDocument document = ofContainer container := by
    rw [ofDocument, hroot]
    change (Markup.container root >>= ofContainer) = _
    rw [hcontainer]
    rfl
  have haccepted : (∀ element ∈ visitedAll container.children, kind element ≠ .unknown ∧
        ∀ reading ∈ readings element, reading.accepted = true) ↔
      (visitedAll container.children).findSome? fault? = none := by
    simp only [List.findSome?_eq_none_iff, Markup.fault?_eq_none_iff]
  rw [hdocument, haccepted]
  rcases ofContainer_cases container with ⟨error, hfault, hpattern⟩ |
    ⟨hfault, ⟨hnote, hpattern⟩ | ⟨hnote, pattern, hpattern, hexpression, hdiagnostics⟩⟩
  · rw [hpattern, hfault]
    refine ⟨by simp [Except.map], fun _ hcompiled => (nomatch hcompiled), fun other hother => ?_⟩
    exact (Except.error.inj hother).symm
  · rw [hpattern, hfault]
    refine ⟨by simp [Except.map, hnote], fun _ hcompiled => (nomatch hcompiled),
      fun other hother => ?_⟩
    exact (Except.error.inj hother).symm
  · rw [hpattern, hfault]
    refine ⟨by simp [Except.map, hnote], fun compiled hcompiled => ?_, fun _ herror =>
      (nomatch herror)⟩
    obtain rfl := Except.ok.inj hcompiled
    exact ⟨hexpression, hdiagnostics⟩

/-- An eighth note in a beam, and a note with a quarter sharp after it. -/
def quarterSharpDocument : List Char :=
  ("<mei><music><body><mdiv><score><section><measure><staff><layer>" ++
    "<beam><note dur='8'/></beam><note accid='1qs'/>" ++
    "</layer></staff></measure></section></score></mdiv></body></music></mei>").toList

/-- The expression of the two notes. -/
def quarterSharpExpression : List Char :=
  NotePattern.expression ⟨.exact ⟨.c, .clamp 5, .exact .plain⟩, .exact ⟨.denominator 8, 0⟩⟩ ++
    NotePattern.expression
      ⟨.exact ⟨.c, .clamp 5, .exact .quarterSharp⟩, .exact ⟨.denominator 4, 0⟩⟩

private theorem visited_quarterSharpDocument :
    ((Markup.parse quarterSharpDocument).toOption.bind fun root : Element =>
      (Markup.container root).toOption.map fun container : Element => decide
        (((∀ element ∈ visitedAll container.children, kind element ≠ .unknown ∧
              ∀ reading ∈ readings element, reading.accepted = true) ∧
            ∃ element ∈ visitedAll container.children, kind element = .note) ∧
          inlineTexts container.children = quarterSharpExpression ∧
          (visitedAll container.children).flatMap reports =
            [(Fallback.unspellableAccidental .quarterSharp).diagnostic])) = some true := by
  decide +kernel

/-- The expressions of the two notes follow each other, and the quarter sharp is reported. -/
theorem compile_ofDocument_quarterSharp :
    ∃ compiled, (ofDocument quarterSharpDocument).map compile = .ok compiled ∧
      compiled.expression = quarterSharpExpression ∧
      compiled.diagnostics = [(Fallback.unspellableAccidental .quarterSharp).diagnostic] := by
  have hvisited := visited_quarterSharpDocument
  generalize quarterSharpDocument = document at *
  cases hroot : Markup.parse document with
  | error e =>
    rw [hroot] at hvisited
    cases hvisited
  | ok root =>
    rw [hroot] at hvisited
    change (Markup.container root).toOption.map _ = _ at hvisited
    cases hcontainer : Markup.container root with
    | error e =>
      rw [hcontainer] at hvisited
      cases hvisited
    | ok container =>
      rw [hcontainer] at hvisited
      obtain ⟨haccepted, htext, hreports⟩ := of_decide_eq_true (Option.some.inj hvisited)
      obtain ⟨hiff, hcompiled, -⟩ := compile_ofDocument hroot hcontainer
      obtain ⟨compiled, h⟩ := hiff.mpr haccepted
      obtain ⟨hexpression, hdiagnostics⟩ := hcompiled compiled h
      exact ⟨compiled, h, hexpression.trans htext, hdiagnostics.trans hreports⟩

end Pattern

end MotifSearch
