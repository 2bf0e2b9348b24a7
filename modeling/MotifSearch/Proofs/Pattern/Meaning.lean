import MotifSearch.Markup.Pattern
import MotifSearch.Proofs.Record.NoteMeaning
import MotifSearch.Proofs.Search.Spans

/-!
# What a pattern means

A pattern is put together from the meanings of its parts: its notes, sequences, choices and groups.
Its expression means the same as long as no choice has something beside it. But sequences have no
brackets: a choice that is written in a beam takes in what stands before and after the beam, up to
the next enclosing group. So an expression means what its pattern means without its beams.

## Main definitions

* `Pattern.meaning` — what a pattern means, from the meanings of its parts
* `Pattern.withoutBeams` — a pattern whose beams have been taken away
* `Pattern.Confined` — no choice has something beside it

## Main results

* `meaning_syntaxTree` — an expression means what its pattern means without its beams
* `meaning_withoutBeams` — beams make no difference where choices are confined
* `matches_iff_withoutBeams` — both for the ranges of a score
-/

namespace MotifSearch

/-- A word of the same meaning as often as a quantifier asks for. -/
def Quantifier.repeated : Quantifier → Meaning → Meaning
  | exactlyOne, body => body
  | optional, body => body.repeated .optional
  | oneOrMore, body => body.repeated .oneOrMore
  | zeroOrMore, body => body.repeated .zeroOrMore

theorem Quantifier.meaning_loop (quantifier : Quantifier) (regex : Regex) :
    (quantifier.loop regex).meaning = quantifier.repeated regex.meaning := by
  cases quantifier <;> rfl

namespace Pattern

mutual

/-- What a pattern means. -/
def meaning : Pattern → Meaning
  | note spec => spec.meaning
  | sequence children => sequenceMeaning children
  | alternation branches => choiceMeaning branches
  | group children bounds => bounds.usedQuantifier.repeated (sequenceMeaning children)

/-- What patterns mean one after the other. -/
def sequenceMeaning : List Pattern → Meaning
  | [] => .nothing
  | child :: children => child.meaning.followedBy (sequenceMeaning children)

/-- What a choice between sequences of patterns means. -/
def choiceMeaning : List (List Pattern) → Meaning
  | [] => .never
  | branch :: branches => (sequenceMeaning branch).either (choiceMeaning branches)

end

mutual

/-- What a pattern is among its siblings without its beams: the branches of a choice that takes in
what stands beside it. -/
def strands : Pattern → List (List Pattern)
  | note spec => [[note spec]]
  | sequence children => sequenceStrands children
  | alternation branches => choiceStrands branches
  | group children bounds => [[group [alternation (sequenceStrands children)] bounds]]

/-- The branches of siblings: a branch goes on until the next choice mark. -/
def sequenceStrands : List Pattern → List (List Pattern)
  | [] => [[]]
  | child :: children => joinBranches child.strands (sequenceStrands children)

/-- The branches of a choice. -/
def choiceStrands : List (List Pattern) → List (List Pattern)
  | [] => [[]]
  | [branch] => sequenceStrands branch
  | branch :: branches => sequenceStrands branch ++ choiceStrands branches

end

/-- A pattern whose beams have been taken away: what stands in a beam stands in its place. -/
def withoutBeams (pattern : Pattern) : Pattern :=
  alternation pattern.strands

/-- Siblings none of which has a choice in it outside its groups, unless it is the only one. -/
def Apart (children : List Pattern) : Prop :=
  ∀ child ∈ children, children = [child] ∨ child.strands.length = 1

mutual

/-- No choice in a pattern has something beside it within the same group. -/
def Confined : Pattern → Prop
  | note _ => True
  | sequence children => Apart children ∧ SequenceConfined children
  | alternation branches => branches ≠ [] ∧ ChoiceConfined branches
  | group children _ => Apart children ∧ SequenceConfined children

def SequenceConfined : List Pattern → Prop
  | [] => True
  | child :: children => child.Confined ∧ SequenceConfined children

def ChoiceConfined : List (List Pattern) → Prop
  | [] => True
  | branch :: branches => (Apart branch ∧ SequenceConfined branch) ∧ ChoiceConfined branches

end

theorem sequenceMeaning_cons (child : Pattern) (children : List Pattern) :
    sequenceMeaning (child :: children) = child.meaning.followedBy (sequenceMeaning children) := by
  rw [sequenceMeaning]

theorem choiceMeaning_cons (branch : List Pattern) (branches : List (List Pattern)) :
    choiceMeaning (branch :: branches) =
      (sequenceMeaning branch).either (choiceMeaning branches) := by
  rw [choiceMeaning]

@[simp] theorem sequenceMeaning_singleton (child : Pattern) :
    sequenceMeaning [child] = child.meaning := by
  rw [sequenceMeaning, sequenceMeaning, Meaning.followedBy_nothing]

@[simp] theorem choiceMeaning_singleton (branch : List Pattern) :
    choiceMeaning [branch] = sequenceMeaning branch := by
  rw [choiceMeaning, choiceMeaning, Meaning.either_never]

theorem choiceMeaning_eq_choice (branches : List (List Pattern)) :
    choiceMeaning branches = .choice (branches.map sequenceMeaning) := by
  induction branches with
  | nil => rw [choiceMeaning, List.map_nil, Meaning.choice_nil]
  | cons branch branches ih => rw [choiceMeaning, ih, List.map_cons, Meaning.choice_cons]

theorem sequenceMeaning_append (first second : List Pattern) :
    sequenceMeaning (first ++ second) =
      (sequenceMeaning first).followedBy (sequenceMeaning second) := by
  induction first with
  | nil => rw [List.nil_append, sequenceMeaning, Meaning.nothing_followedBy]
  | cons child first ih =>
    rw [List.cons_append, sequenceMeaning, ih, sequenceMeaning, Meaning.followedBy_assoc]

end Pattern

/-- A choice mark before the second choice keeps the two choices apart. -/
theorem joinBranches_nil_cons {α : Type} {first : List (List α)} (h : first ≠ [])
    (second : List (List α)) : joinBranches first ([] :: second) = first ++ second := by
  induction first with
  | nil => exact absurd rfl h
  | cons branch first ih =>
    cases first with
    | nil => simp [joinBranches]
    | cons next first =>
      rw [joinBranches, ih (by simp)]
      rfl

/-- Branches that mean the same still do after others that mean the same. -/
theorem map_joinBranches {α β : Type} {f : List α → Meaning} {g : List β → Meaning}
    (hf : ∀ first second, f (first ++ second) = (f first).followedBy (f second))
    (hg : ∀ first second, g (first ++ second) = (g first).followedBy (g second))
    {first second : List (List α)} {first' second' : List (List β)}
    (hfirst : first.map f = first'.map g) (hsecond : second.map f = second'.map g) :
    (joinBranches first second).map f = (joinBranches first' second').map g := by
  -- Choices whose branches mean the same have the same number of branches.
  induction first generalizing first' with
  | nil =>
    obtain rfl : first' = [] := List.map_eq_nil_iff.mp hfirst.symm
    exact hsecond
  | cons branch first ih =>
    rcases first' with _ | ⟨branch', first'⟩
    · cases hfirst
    obtain ⟨hbranch, hrest⟩ := List.cons.inj hfirst
    rcases first with _ | ⟨next, first⟩ <;> rcases first' with _ | ⟨next', first'⟩
    · -- The last branch goes on with the first branch of the second choice.
      rcases second with _ | ⟨head, second⟩ <;> rcases second' with _ | ⟨head', second'⟩
      · rfl
      · cases hsecond
      · cases hsecond
      · obtain ⟨hhead, hothers⟩ := List.cons.inj hsecond
        simp only [joinBranches, List.modifyHead_cons, List.map_cons, hf, hg, hbranch, hhead,
          hothers]
    · cases hrest
    · cases hrest
    · rw [joinBranches, joinBranches, List.map_cons, List.map_cons, hbranch, ih hrest]

namespace Pattern

mutual

/-- The branches of a flattened pattern mean what its strands mean. -/
theorem map_branches_pieces : (pattern : Pattern) →
    (Piece.branches pattern.pieces).map Regex.itemsMeaning = pattern.strands.map sequenceMeaning
  | note spec => by
    rw [pieces, Piece.branches_map_item, strands, List.map_singleton, List.map_singleton,
      spec.meaning_items, sequenceMeaning_singleton, meaning]
  | sequence children => map_branches_sequencePieces children
  | alternation branches => map_branches_branchesPieces branches
  | group children bounds => by
    -- A choice in a group stays within it: the group is one item, and one branch of what is around.
    have hbody : (Piece.tree (sequencePieces children)).meaning =
        choiceMeaning (sequenceStrands children) := by
      rw [Piece.tree, Regex.meaning_ofBranches (Piece.branches_ne_nil _), Regex.branchesMeaning,
        map_branches_sequencePieces children, choiceMeaning_eq_choice]
    rw [pieces, Piece.branches, Piece.branches, List.modifyHead_cons, strands, List.map_singleton,
      List.map_singleton, Regex.itemsMeaning_singleton, Quantifier.meaning_loop,
      sequenceMeaning_singleton, meaning, sequenceMeaning_singleton, meaning, Regex.meaning, hbody]

theorem map_branches_sequencePieces : (children : List Pattern) →
    (Piece.branches (sequencePieces children)).map Regex.itemsMeaning =
      (sequenceStrands children).map sequenceMeaning
  | [] => rfl
  | child :: children => by
    rw [sequencePieces, sequenceStrands, Piece.branches_append]
    exact map_joinBranches Regex.itemsMeaning_append sequenceMeaning_append
      (map_branches_pieces child) (map_branches_sequencePieces children)

theorem map_branches_branchesPieces : (branches : List (List Pattern)) →
    (Piece.branches (branchesPieces branches)).map Regex.itemsMeaning =
      (choiceStrands branches).map sequenceMeaning
  | [] => rfl
  | [branch] => map_branches_sequencePieces branch
  | branch :: next :: branches => by
    rw [branchesPieces, choiceStrands, Piece.branches_append, Piece.branches,
      joinBranches_nil_cons (Piece.branches_ne_nil _), List.map_append, List.map_append,
      map_branches_sequencePieces branch, map_branches_branchesPieces (next :: branches)]
    · simp
    · simp

end

/-- The expression of a pattern means what the pattern means without its beams. -/
theorem meaning_syntaxTree (pattern : Pattern) :
    pattern.syntaxTree.meaning = pattern.withoutBeams.meaning := by
  rw [syntaxTree, Piece.tree, Regex.meaning_ofBranches (Piece.branches_ne_nil _),
    Regex.branchesMeaning, map_branches_pieces, withoutBeams, meaning, choiceMeaning_eq_choice]

theorem strands_ne_nil (pattern : Pattern) : pattern.strands ≠ [] := by
  intro hnil
  have hmap := pattern.map_branches_pieces
  rw [hnil, List.map_nil, List.map_eq_nil_iff] at hmap
  exact Piece.branches_ne_nil _ hmap

theorem length_sequenceStrands {children : List Pattern}
    (h : ∀ child ∈ children, child.strands.length = 1) :
    (sequenceStrands children).length = 1 := by
  induction children with
  | nil => rfl
  | cons child children ih =>
    obtain ⟨hchild, hchildren⟩ := List.forall_mem_cons.mp h
    obtain ⟨strand, hstrand⟩ := List.length_eq_one_iff.mp hchild
    rw [sequenceStrands, hstrand, joinBranches, List.length_modifyHead, ih hchildren]

mutual

/-- Beams make no difference where choices are confined. -/
theorem choiceMeaning_strands : (pattern : Pattern) → pattern.Confined →
    choiceMeaning pattern.strands = pattern.meaning
  | note spec, _ => by rw [strands, choiceMeaning_singleton, sequenceMeaning_singleton]
  | sequence children, ⟨hapart, hchildren⟩ => by
    rw [strands, meaning, choiceMeaning_sequenceStrands children hapart hchildren]
  | alternation branches, ⟨hne, hbranches⟩ => by
    rw [strands, meaning, choiceMeaning_choiceStrands branches hne hbranches]
  | group children bounds, ⟨hapart, hchildren⟩ => by
    rw [strands, choiceMeaning_singleton, sequenceMeaning_singleton, meaning, meaning,
      sequenceMeaning_singleton, meaning, choiceMeaning_sequenceStrands children hapart hchildren]

theorem choiceMeaning_sequenceStrands : (children : List Pattern) → Apart children →
    SequenceConfined children → choiceMeaning (sequenceStrands children) = sequenceMeaning children
  | [], _, _ => by rw [sequenceStrands, choiceMeaning_singleton]
  | [child], _, ⟨hchild, _⟩ => by
    rw [sequenceStrands, sequenceStrands, joinBranches_nil_cons child.strands_ne_nil,
      List.append_nil, choiceMeaning_strands child hchild, sequenceMeaning_singleton]
  | child :: next :: children, hapart, ⟨hchild, hchildren⟩ => by
    -- No sibling has a choice, so that all of them together are a single branch.
    have hsingle : ∀ other ∈ child :: next :: children, other.strands.length = 1 :=
      fun other hother => (hapart other hother).resolve_left (by simp)
    obtain ⟨hfirst, hothers⟩ := List.forall_mem_cons.mp hsingle
    have hrest := choiceMeaning_sequenceStrands (next :: children)
      (fun other hother => Or.inr (hothers other hother)) hchildren
    have hstart := choiceMeaning_strands child hchild
    obtain ⟨strand, hstrand⟩ := List.length_eq_one_iff.mp hfirst
    obtain ⟨rest, heq⟩ := List.length_eq_one_iff.mp (length_sequenceStrands hothers)
    rw [hstrand, choiceMeaning_singleton] at hstart
    rw [heq, choiceMeaning_singleton] at hrest
    rw [sequenceMeaning_cons child, sequenceStrands, hstrand, heq, joinBranches,
      List.modifyHead_cons, choiceMeaning_singleton, sequenceMeaning_append, hstart, hrest]

theorem choiceMeaning_choiceStrands : (branches : List (List Pattern)) → branches ≠ [] →
    ChoiceConfined branches → choiceMeaning (choiceStrands branches) = choiceMeaning branches
  | [], hne, _ => absurd rfl hne
  | [branch], _, ⟨⟨hapart, hbranch⟩, _⟩ => by
    rw [choiceStrands, choiceMeaning_sequenceStrands branch hapart hbranch,
      choiceMeaning_singleton]
  | branch :: next :: branches, _, ⟨⟨hapart, hbranch⟩, hbranches⟩ => by
    have hrest := choiceMeaning_choiceStrands (next :: branches) (by simp) hbranches
    have hfirst := choiceMeaning_sequenceStrands branch hapart hbranch
    rw [choiceMeaning_eq_choice] at hrest hfirst
    rw [choiceMeaning_cons branch, choiceStrands, choiceMeaning_eq_choice, List.map_append,
      Meaning.choice_append, hfirst, hrest]
    simp

end

/-- Beams make no difference where choices are confined. -/
theorem meaning_withoutBeams {pattern : Pattern} (h : pattern.Confined) :
    pattern.withoutBeams.meaning = pattern.meaning := by
  rw [withoutBeams, meaning, choiceMeaning_strands pattern h]

/-- The ranges of a score that an expression matches are those that its pattern means without its
beams, whether or not a search reports them. Where choices are confined, they are those that the
pattern means as it is. -/
theorem matches_iff_withoutBeams (pattern : Pattern) {regex : Regex}
    (h : readExpression pattern.compile.expression = .ok regex) (score : List Char) :
    (∀ span, regex.meaning.Matches score span ↔
        pattern.withoutBeams.meaning.Matches score span) ∧
      (pattern.Confined → ∀ span,
        regex.meaning.Matches score span ↔ pattern.meaning.Matches score span) ∧
      ∀ span ∈ regex.findAll score, pattern.withoutBeams.meaning.Matches score span := by
  obtain rfl := eq_syntaxTree_of_read h
  refine ⟨fun span => ?_, fun hconfined span => ?_, fun span hspan => ?_⟩
  · rw [meaning_syntaxTree]
  · rw [meaning_syntaxTree, meaning_withoutBeams hconfined]
  · rw [← meaning_syntaxTree]
    exact Regex.matches_of_mem_findAll hspan

/-- A quarter note in the octave of middle c. -/
def quarterNote (letter : PitchLetter) : Pattern :=
  note ⟨.exact ⟨letter, ⟨4, by decide, by decide⟩, .exact .plain⟩, .exact ⟨.denominator 4, 0⟩⟩

/-- One of two notes at least once, and then a third one. The choice is in a beam, and nothing but the
beam is in the group that is repeated. -/
def someThen : Pattern :=
  sequence [group [sequence [alternation [[quarterNote .d], [quarterNote .e]]]] ⟨some 1, none⟩,
    sequence [quarterNote .f]]

set_option maxRecDepth 2000 in
/-- Both notes of the choice are found, one after the other, and the third one after them. -/
theorem matches_withoutBeams_someThen :
    readExpression someThen.compile.expression = .ok someThen.syntaxTree ∧
      someThen.Confined ∧
      someThen.syntaxTree.findAll "4d\n4e\n4f\n".toList = [⟨0, 9⟩] ∧
      someThen.withoutBeams.meaning.Matches "4d\n4e\n4f\n".toList ⟨0, 9⟩ ∧
      someThen.meaning.Matches "4d\n4e\n4f\n".toList ⟨0, 9⟩ := by
  have hread : readExpression someThen.compile.expression = .ok someThen.syntaxTree := rfl
  have hconfined : someThen.Confined := by
    simp [someThen, quarterNote, Confined, SequenceConfined, ChoiceConfined, Apart, strands,
      sequenceStrands, joinBranches]
  have hspans : someThen.syntaxTree.findAll "4d\n4e\n4f\n".toList = [⟨0, 9⟩] := rfl
  have hspan : ⟨0, 9⟩ ∈ someThen.syntaxTree.findAll "4d\n4e\n4f\n".toList :=
    hspans ▸ List.mem_singleton_self _
  obtain ⟨-, hmatches, hfound⟩ :=
    matches_iff_withoutBeams someThen hread "4d\n4e\n4f\n".toList
  exact ⟨hread, hconfined, hspans, hfound _ hspan,
    (hmatches hconfined _).mp (Regex.matches_of_mem_findAll hspan)⟩

/-- A note as an element. -/
def noteElement (letter : PitchLetter) : Xml.Element :=
  .mk ⟨none, "note".toList⟩ [(⟨none, "pname".toList⟩, [letter.char])] []

theorem newline_mem_of_meaning {note : NotePattern} {atLineStart : Bool} {word after : List Char}
    (h : note.meaning atLineStart word after) : '\n' ∈ word := by
  obtain ⟨_, skipped, rfl, ⟨lead, line, rfl, -⟩, -⟩ := h
  simp

/-- One of two notes, and then a third one. -/
def eitherThen : Pattern :=
  sequence [sequence [alternation [[quarterNote .d], [quarterNote .e]]], quarterNote .f]

/-- Every match of one of two notes and then a third one takes two records. -/
theorem two_le_count_of_meaning_eitherThen {atLineStart : Bool} {word after : List Char}
    (h : eitherThen.meaning atLineStart word after) : 2 ≤ word.count '\n' := by
  simp only [eitherThen, meaning, sequenceMeaning, choiceMeaning, Meaning.followedBy_nothing,
    Meaning.either_never] at h
  obtain ⟨first, second, rfl, hfirst, hsecond⟩ := h
  have hfirst : '\n' ∈ first := by
    rcases hfirst with h | h
    · exact newline_mem_of_meaning h
    · exact newline_mem_of_meaning h
  -- Neither of the two parts can be left out, and each of them ends with a newline.
  have hsecond := newline_mem_of_meaning hsecond
  have hcount := List.count_pos_iff.mpr hfirst
  have hcount' := List.count_pos_iff.mpr hsecond
  rw [List.count_append]
  omega

set_option maxRecDepth 2000 in
/-- The choice in a beam takes in what stands after the beam: one of two notes in a beam, and a
third one after it, is found where there is only the first one. -/
theorem matches_choice_in_beam :
    ofContainer (.mk ⟨none, "layer".toList⟩ []
        [.mk ⟨none, "beam".toList⟩ [] [noteElement .d,
          .mk ⟨some Markup.queryUri, "or".toList⟩ [] [], noteElement .e], noteElement .f]) =
        .ok eitherThen ∧
      ∃ regex, readExpression eitherThen.compile.expression = .ok regex ∧
        regex.meaning.Matches "4d\n".toList ⟨0, 3⟩ ∧
        ¬ eitherThen.meaning.Matches "4d\n".toList ⟨0, 3⟩ := by
  have hspans : eitherThen.syntaxTree.findAll "4d\n".toList = [⟨0, 3⟩] := rfl
  refine ⟨rfl, eitherThen.syntaxTree, rfl, Regex.matches_of_mem_findAll ?_, ?_⟩
  · rw [hspans]
    exact List.mem_singleton_self _
  · rintro ⟨before, word, after, htext, -, hmeaning⟩
    have hcount := two_le_count_of_meaning_eitherThen hmeaning
    have hone := congrArg (List.count '\n') htext
    rw [List.count_append, List.count_append, show "4d\n".toList.count '\n' = 1 from rfl] at hone
    omega

end Pattern

end MotifSearch
