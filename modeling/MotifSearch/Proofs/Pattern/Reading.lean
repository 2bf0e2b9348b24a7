import MotifSearch.Pattern.Compile
import MotifSearch.Proofs.Pattern.SyntaxTree
import MotifSearch.Proofs.Regex.Tokens
import MotifSearch.Search.Basic

/-!
# Reading the expression of a pattern

The expression of a pattern is written without brackets around sequences and alternations, and it is
read back as the syntax tree of the pattern. Each part of the text is read on its own: the only mark
that looks at what follows is a loop mark, which a question mark makes lazy, and no part of an
expression begins with a question mark.

## Main definitions

* `Regex.Level.add` — what has been read of a group, with some pieces more
* `Reads` — a text is read as some pieces, wherever it stands

## Main results

* `Reads.append`, `Reads.group` — texts that follow each other, and texts in brackets
* `Pattern.reads` — the expression of a pattern is read as the pieces of the pattern
* `readExpression_compile` — every compiled expression is read, and as the tree of the pattern
-/

namespace MotifSearch

open Regex (Level assemble)

/-- What has been read of a group, with some pieces more. -/
def Regex.Level.add (level : Level) : List Piece → Level
  | [] => level
  | .item regex :: pieces => (level.push regex).add pieces
  | .bar :: pieces => level.nextBranch.add pieces

namespace Regex.Level

@[simp] theorem add_append (level : Level) (first second : List Piece) :
    level.add (first ++ second) = (level.add first).add second := by
  induction first generalizing level with
  | nil => rfl
  | cons piece first ih => cases piece <;> exact ih _

theorem close_add (level : Level) (pieces : List Piece) :
    (level.add pieces).close = alternatives (level.branches.reverse ++
      ((Piece.branches pieces).modifyHead (level.items.reverse ++ ·)).map concat) := by
  induction pieces generalizing level with
  | nil => simp [add, close, nextBranch, Piece.branches]
  | cons piece pieces ih =>
    cases piece with
    | item regex =>
      rw [add, ih]
      simp [push, Piece.branches, List.modifyHead_modifyHead, Function.comp_def]
    | bar =>
      rw [add, ih]
      cases hbranches : Piece.branches pieces <;> simp [nextBranch, Piece.branches, hbranches]

/-- A group is closed as the tree of its pieces. -/
theorem close_start_add (pieces : List Piece) : (start.add pieces).close = Piece.tree pieces := by
  rw [close_add]
  cases hbranches : Piece.branches pieces <;>
    simp [start, Piece.tree, ofBranches, hbranches]

end Regex.Level

/-- A text is read as some pieces, wherever it stands. -/
structure Reads (text : List Char) (pieces : List Piece) : Prop where
  head_ne : text.head? ≠ some '?'
  exists_tokens : ∃ tokens, Token.scan none text = .ok tokens ∧
    ∀ more outer level,
      assemble (tokens ++ more) outer level = assemble more outer (level.add pieces)

namespace Reads

variable {first second text : List Char} {firstPieces secondPieces pieces : List Piece}

theorem nil : Reads [] [] :=
  ⟨by simp, [], rfl, fun _ _ _ => rfl⟩

/-- Texts that follow each other. -/
theorem append (hfirst : Reads first firstPieces) (hsecond : Reads second secondPieces) :
    Reads (first ++ second) (firstPieces ++ secondPieces) := by
  obtain ⟨hhead, firstTokens, hscanFirst, hassembleFirst⟩ := hfirst
  obtain ⟨hnext, secondTokens, hscanSecond, hassembleSecond⟩ := hsecond
  refine ⟨?_, firstTokens ++ secondTokens, ?_, ?_⟩
  · cases first with
    | nil => exact hnext
    | cons c first => exact hhead
  · rw [Token.scan_append hscanFirst hnext, hscanSecond]
    rfl
  · intro more outer level
    rw [List.append_assoc, hassembleFirst, hassembleSecond, Level.add_append]

theorem bar : Reads ['|'] [.bar] :=
  ⟨by simp, [.bar], rfl, fun _ _ _ => rfl⟩

/-- The tokens after the body of a group: its closing bracket and the mark of a quantifier. -/
private theorem closing (quantifier : Quantifier) : ∃ tokens,
    Token.scan none (')' :: quantifier.suffix) = .ok (.closeGroup :: tokens) ∧
      ∀ item more outer (level : Level), assemble (tokens ++ more) outer (level.push item) =
        assemble more outer (level.push (quantifier.loop item)) := by
  cases quantifier with
  | exactlyOne => exact ⟨[], rfl, fun _ _ _ _ => rfl⟩
  | optional => exact ⟨[.loop .optional true], rfl, fun _ _ _ _ => rfl⟩
  | oneOrMore => exact ⟨[.loop .oneOrMore true], rfl, fun _ _ _ _ => rfl⟩
  | zeroOrMore => exact ⟨[.loop .zeroOrMore true], rfl, fun _ _ _ _ => rfl⟩

/-- A text in brackets is read as one item, to which the mark of a quantifier applies. -/
theorem group (quantifier : Quantifier) (h : Reads text pieces) :
    Reads (['('] ++ text ++ [')'] ++ quantifier.suffix)
      [.item (quantifier.loop (.group true (Piece.tree pieces)))] := by
  -- The body is tokenized between two brackets, of which the closing one goes with the quantifier.
  obtain ⟨hhead, tokens, hscan, hassemble⟩ := h
  obtain ⟨closing, hclosing, hloop⟩ := closing quantifier
  have hopening : Token.scan none ['('] = .ok [.openGroup true] := rfl
  have hinner : (text ++ ')' :: quantifier.suffix).head? ≠ some '?' := by
    rcases text with _ | ⟨c, text⟩
    · simp
    · exact hhead
  have hwhole : Token.scan none (['('] ++ (text ++ ')' :: quantifier.suffix)) =
      .ok (.openGroup true :: (tokens ++ .closeGroup :: closing)) := by
    rw [Token.scan_append hopening hinner, Token.scan_append hscan (by simp), hclosing]
    rfl
  refine ⟨by simp, .openGroup true :: (tokens ++ .closeGroup :: closing), ?_, ?_⟩
  · simpa using hwhole
  · intro more outer level
    rw [List.cons_append, List.append_assoc, assemble, hassemble, List.cons_append, assemble,
      Level.close_start_add, hloop]
    rfl

/-- Plain characters. -/
theorem plain (h : ∀ c ∈ text, Token.isMeta c = false) :
    Reads text ((text.map .plain).map .item) := by
  induction text with
  | nil => exact nil
  | cons c text ih =>
    have hc := h c List.mem_cons_self
    have hsingle : Reads [c] [.item (.plain c)] := by
      refine ⟨?_, [.atom (.plain c)], Token.scan_singleton hc, fun _ _ _ => rfl⟩
      rintro heq
      obtain rfl := Option.some.inj heq
      cases hc
    exact hsingle.append (ih fun d hd => h d (List.mem_cons_of_mem c hd))

/-- Marks of the syntax with backslashes before them. -/
theorem escaped (h : ∀ c ∈ text, Token.isMeta c = true) :
    Reads (escapeAll text) ((text.map .plain).map .item) := by
  induction text with
  | nil => exact nil
  | cons c text ih =>
    have hsingle : Reads ['\\', c] [.item (.plain c)] := by
      refine ⟨by simp, [.atom (.plain c)], ?_, fun _ _ _ => rfl⟩
      rw [Token.scan, Token.escaped?_of_isMeta (h c List.mem_cons_self)]
      rfl
    exact hsingle.append (ih fun d hd => h d (List.mem_cons_of_mem c hd))

end Reads

section Record

theorem reads_recordStart : Reads recordStart [.item Record.startItem] :=
  ⟨by decide, _, rfl, fun _ _ _ => rfl⟩

theorem reads_openingMarks : Reads openingMarks [.item Record.marksItem] :=
  ⟨by decide, _, rfl, fun _ _ _ => rfl⟩

theorem reads_anyDuration :
    Reads anyDuration [.item Record.digitsItem, .item Record.dotsItem] :=
  ⟨by decide, _, rfl, fun _ _ _ => rfl⟩

theorem reads_anyPitch : Reads anyPitch [.item Record.lettersItem] :=
  ⟨by decide, _, rfl, fun _ _ _ => rfl⟩

theorem reads_anyAccidental : Reads anyAccidental [.item Record.accidentalItem] :=
  ⟨by decide, _, rfl, fun _ _ _ => rfl⟩

theorem reads_recordRest : Reads recordRest [.item Record.restItem] :=
  ⟨by decide, _, rfl, fun _ _ _ => rfl⟩

theorem reads_recordEnd : Reads recordEnd [.item (.plain '\n')] :=
  ⟨by decide, _, rfl, fun _ _ _ => rfl⟩

theorem reads_skippedRecords : Reads skippedRecords [.item Record.skipItem] :=
  ⟨by decide, _, rfl, fun _ _ _ => rfl⟩

end Record

private theorem isMeta_of_isAlphanum {c : Char} (h : c.isAlphanum = true) :
    Token.isMeta c = false := by
  rw [← Bool.not_eq_true]
  intro hmeta
  simp only [Token.isMeta, List.mem_cons, List.not_mem_nil, or_false, decide_eq_true_eq] at hmeta
  rcases hmeta with rfl | rfl | rfl | rfl | rfl | rfl | rfl | rfl | rfl | rfl | rfl | rfl | rfl |
    rfl | rfl | rfl | rfl | rfl <;> cases h

theorem DurationCode.isMeta_of_mem_kern {code : DurationCode} {c : Char} (h : c ∈ code.kern) :
    Token.isMeta c = false := by
  apply isMeta_of_isAlphanum
  rw [Char.isAlphanum, isDigit_of_mem_kern h, Bool.or_true]

theorem DottedDuration.reads (duration : DottedDuration) :
    Reads duration.expression (duration.items.map .item) := by
  have hcode := Reads.plain fun c hc => duration.code.isMeta_of_mem_kern hc
  have hdots : Reads (escapeAll (List.replicate duration.dots.toNat '.'))
      (((List.replicate duration.dots.toNat '.').map .plain).map .item) := by
    apply Reads.escaped
    intro c hc
    rw [List.eq_of_mem_replicate hc]
    rfl
  simpa [expression, items] using hcode.append hdots

theorem isMeta_of_mem_kernLetters {letter : PitchLetter} {octave : Octave} {c : Char}
    (h : c ∈ kernLetters letter octave) : Token.isMeta c = false := by
  apply isMeta_of_isAlphanum
  rw [Char.isAlphanum, isAlpha_of_mem_kernLetters h, Bool.true_or]

theorem reads_accidentalExpression (accidental : Constraint Accidental) :
    Reads (accidentalExpression accidental) ((accidentalItems accidental).map .item) := by
  cases accidental with
  | any => exact reads_anyAccidental
  | exact accidental =>
    apply Reads.escaped
    cases accidental <;> simp [Accidental.kern?] <;> rfl

theorem PitchPattern.reads (pitch : PitchPattern) :
    Reads pitch.expression (pitch.items.map .item) := by
  have hletters := Reads.plain fun c =>
    @isMeta_of_mem_kernLetters pitch.letter pitch.octave c
  rw [items, List.map_append]
  exact hletters.append (reads_accidentalExpression pitch.accidental)

namespace NotePattern

theorem reads_durationExpression (note : NotePattern) :
    Reads note.durationExpression (note.durationItems.map .item) := by
  obtain ⟨pitch, duration⟩ := note
  cases duration with
  | any => exact reads_anyDuration
  | exact duration => exact duration.reads

theorem reads_pitchExpression (note : NotePattern) :
    Reads note.pitchExpression (note.pitchItems.map .item) := by
  obtain ⟨pitch, duration⟩ := note
  cases pitch with
  | any => exact reads_anyPitch.append reads_anyAccidental
  | exact pitch => exact pitch.reads

/-- The expression of a note is read as the items of the note. -/
theorem reads (note : NotePattern) : Reads note.expression (note.items.map .item) := by
  have hhead := (reads_recordStart.append reads_openingMarks).append note.reads_durationExpression
  have htail := (reads_recordRest.append reads_recordEnd).append reads_skippedRecords
  have hnote := (hhead.append note.reads_pitchExpression).append htail
  simpa [expression, items] using hnote

end NotePattern

namespace Pattern

mutual

/-- The expression of a pattern is read as the pieces of the pattern. -/
theorem reads : (pattern : Pattern) → Reads pattern.expression pattern.pieces
  | note spec => spec.reads
  | sequence children => reads_sequenceExpression children
  | alternation branches => reads_branchesExpression branches
  | group children bounds => (reads_sequenceExpression children).group bounds.usedQuantifier

theorem reads_sequenceExpression : (children : List Pattern) →
    Reads (sequenceExpression children) (sequencePieces children)
  | [] => .nil
  | child :: children => child.reads.append (reads_sequenceExpression children)

theorem reads_branchesExpression : (branches : List (List Pattern)) →
    Reads (branchesExpression branches) (branchesPieces branches)
  | [] => .nil
  | [branch] => reads_sequenceExpression branch
  | branch :: next :: branches =>
    (reads_sequenceExpression branch).append
      (Reads.bar.append (reads_branchesExpression (next :: branches)))

end

end Pattern

/-- A text that is read as some pieces is an expression, unless it is nested too deep, and its tree
is the tree of the pieces. -/
theorem Reads.parse {text : List Char} {pieces : List Piece} (h : Reads text pieces) :
    Regex.parse text = if (Piece.tree pieces).depth ≤ Regex.depthLimit then .ok (Piece.tree pieces)
      else .error (.tooDeep Regex.depthLimit) := by
  obtain ⟨-, tokens, hscan, hassemble⟩ := h
  have htree : assemble tokens [] .start = .ok (Piece.tree pieces) := by
    have hdone := hassemble [] [] .start
    rw [List.append_nil] at hdone
    rw [hdone, assemble, Level.close_start_add]
  rw [Regex.parse, hscan]
  simp only [bind, Except.bind, htree]

/-- The expression of a pattern has the tree of the pattern, unless it is nested too deep. -/
theorem Pattern.parse_expression (pattern : Pattern) :
    Regex.parse pattern.compile.expression =
      if pattern.syntaxTree.depth ≤ Regex.depthLimit then .ok pattern.syntaxTree
      else .error (.tooDeep Regex.depthLimit) :=
  pattern.reads.parse

/-- An expression that is read has the tree of its pattern. -/
theorem Pattern.eq_syntaxTree_of_read {pattern : Pattern} {regex : Regex}
    (h : readExpression pattern.compile.expression = .ok regex) : regex = pattern.syntaxTree := by
  rw [readExpression, pattern.parse_expression] at h
  split at h
  · exact (Except.ok.inj h).symm
  · cases h

/-- The expression of every pattern is well formed, and its tree is the tree of the pattern: every
mark applies to the item it was written for. Only an expression that is nested too deep is not
read. -/
theorem readExpression_compile (pattern : Pattern) :
    readExpression pattern.compile.expression =
      if pattern.syntaxTree.depth ≤ Regex.depthLimit then .ok pattern.syntaxTree
      else .error (.expression (.tooDeep Regex.depthLimit)) := by
  rw [readExpression, pattern.parse_expression]
  split
  · rfl
  · rfl

end MotifSearch
