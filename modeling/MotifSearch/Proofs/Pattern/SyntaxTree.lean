import MotifSearch.Pattern.Expression
import MotifSearch.Regex.Shared

/-!
# The syntax tree of a pattern

What the expression of a pattern stands for, without a detour through its written form. A pattern
is flattened into the items of its notes and groups, with a bar between any two branches of an
alternation; the bars then divide everything up to the next enclosing group. So an alternation does
not end where its last branch ends, because sequences and alternations have no brackets.

## Main definitions

* `NotePattern.items` — the items of a note, one after the other
* `Piece`, `Piece.branches` — an item or a bar, and the branches between bars
* `joinBranches` — the branches of choices that follow each other
* `Pattern.pieces` — a pattern flattened
* `Pattern.syntaxTree` — the tree of a pattern
* `Piece.Compositional` — what holds of notes and groups holds of what is put together from them

## Main results

* `branches_append` — pieces that follow each other join their branches
* `holds_of_mem_branches` — what is compositional holds of the branches of all patterns
-/

namespace MotifSearch

/-- One character as an item. -/
def Regex.plain (c : Char) : Regex :=
  .chars (.single c)

namespace Record

/-- The marks that may precede a duration. -/
def marks : CharSet :=
  .oneOf [.single '&', .single '(', .single '\x7b', .single '[', .single '_']

/-- The digits of a duration. -/
def digits : CharSet :=
  .oneOf [.range '0' '9']

/-- The characters after a pitch that do not go on with it. -/
def pitchEnds : CharSet :=
  .noneOf [.range 'a' 'g', .range 'A' 'G', .single 'n', .single '#', .single '\n', .single '-']

/-- The characters with which a record without notes begins. -/
def controls : CharSet :=
  .oneOf [.single '.', .single '!', .single '*', .single '=']

/-- The start of a record, or of a voice within it. -/
def startItem : Regex :=
  .group false (.alt .lineStart (.plain '\t'))

def marksItem : Regex :=
  .loop .zeroOrMore true (.chars marks)

def digitsItem : Regex :=
  .loop .oneOrMore true (.chars digits)

def dotsItem : Regex :=
  .loop .zeroOrMore true (.plain '.')

/-- The pitch letters in either case. -/
def letters : List Char :=
  ['a', 'b', 'c', 'd', 'e', 'f', 'g', 'A', 'B', 'C', 'D', 'E', 'F', 'G']

def lettersItem : Regex :=
  .group false (.alternatives (letters.map fun letter => .loop .oneOrMore true (.plain letter)))

def accidentalItem : Regex :=
  .group false (.alternatives
    [.loop .zeroOrMore true (.plain '#'), .loop .zeroOrMore true (.plain '-'), .plain 'n'])

/-- The rest of a line. -/
def lineItem : Regex :=
  .loop .zeroOrMore true (.chars .inLine)

/-- The rest of a record, which must not go on with the pitch. -/
def restItem : Regex :=
  .loop .optional true (.group false (.cat (.chars pitchEnds) lineItem))

/-- A record without notes. -/
def controlItem : Regex :=
  .group false (.cat (.chars controls) (.cat lineItem (.plain '\n')))

/-- Records without notes, as few as possible. -/
def skipItem : Regex :=
  .loop .zeroOrMore false controlItem

end Record

/-- The items of a given duration. -/
def DottedDuration.items (duration : DottedDuration) : List Regex :=
  (duration.code.kern ++ List.replicate duration.dots.toNat '.').map .plain

/-- The items of an accidental. -/
def accidentalItems : Constraint Accidental → List Regex
  | .any => [Record.accidentalItem]
  | .exact accidental => (accidental.kern?.getD []).map .plain

/-- The items of a given pitch. -/
def PitchPattern.items (pitch : PitchPattern) : List Regex :=
  (kernLetters pitch.letter pitch.octave).map .plain ++ accidentalItems pitch.accidental

namespace NotePattern

/-- The items of the duration of a note. -/
def durationItems (note : NotePattern) : List Regex :=
  match note.duration with
  | .any => [Record.digitsItem, Record.dotsItem]
  | .exact duration => duration.items

/-- The items of the pitch of a note. -/
def pitchItems (note : NotePattern) : List Regex :=
  match note.pitch with
  | .any => [Record.lettersItem, Record.accidentalItem]
  | .exact pitch => pitch.items

/-- The items of a note, one after the other. -/
def items (note : NotePattern) : List Regex :=
  [Record.startItem, Record.marksItem] ++ note.durationItems ++ note.pitchItems ++
    [Record.restItem, .plain '\n', Record.skipItem]

end NotePattern

/-- A part of a flattened pattern. -/
inductive Piece where
  | item (regex : Regex)
  | bar

/-- The branches of two choices that follow each other without brackets: the last branch of the
first choice goes on with the first branch of the second one. -/
def joinBranches {α : Type} : List (List α) → List (List α) → List (List α)
  | [], others => others
  | [last], others => others.modifyHead (last ++ ·)
  | branch :: next :: branches, others => branch :: joinBranches (next :: branches) others

/-- What is kept when lists are put one after the other holds of joined branches. -/
theorem forall_mem_joinBranches {α : Type} {holds : List α → Prop}
    (happend : ∀ {first second : List α}, holds first → holds second → holds (first ++ second))
    {first second : List (List α)} (hfirst : ∀ branch ∈ first, holds branch)
    (hsecond : ∀ branch ∈ second, holds branch) :
    ∀ branch ∈ joinBranches first second, holds branch := by
  -- The last branch of the first choice and the first one of the second choice become one branch.
  fun_induction joinBranches first second with
  | case1 => exact hsecond
  | case2 last others =>
    cases others with
    | nil => exact hsecond
    | cons next others =>
      obtain ⟨hnext, hothers⟩ := List.forall_mem_cons.mp hsecond
      have hlast := hfirst last List.mem_cons_self
      exact List.forall_mem_cons.mpr ⟨happend hlast hnext, hothers⟩
  | case3 branch next branches others ih =>
    obtain ⟨hbranch, hbranches⟩ := List.forall_mem_cons.mp hfirst
    exact List.forall_mem_cons.mpr ⟨hbranch, ih hbranches hsecond⟩

namespace Piece

/-- The branches between the bars, each given by its items. -/
def branches : List Piece → List (List Regex)
  | [] => [[]]
  | item regex :: pieces => (branches pieces).modifyHead (regex :: ·)
  | bar :: pieces => [] :: branches pieces

theorem branches_ne_nil (pieces : List Piece) : branches pieces ≠ [] := by
  induction pieces with
  | nil => simp [branches]
  | cons piece pieces ih =>
    cases piece with
    | item regex =>
      obtain ⟨branch, others, heq⟩ := List.exists_cons_of_ne_nil ih
      simp [branches, heq]
    | bar => simp [branches]

/-- Pieces that follow each other. -/
theorem branches_append (first second : List Piece) :
    branches (first ++ second) = joinBranches (branches first) (branches second) := by
  induction first with
  | nil =>
    obtain ⟨branch, others, heq⟩ := List.exists_cons_of_ne_nil (branches_ne_nil second)
    simp [branches, joinBranches, heq]
  | cons piece first ih =>
    obtain ⟨branch, others, heq⟩ := List.exists_cons_of_ne_nil (branches_ne_nil first)
    cases piece with
    | item regex =>
      -- The item joins the first branch, which may be the one that goes on with the second choice.
      rw [List.cons_append, branches, ih, branches, heq]
      cases others with
      | nil => simp [joinBranches, List.modifyHead_modifyHead, Function.comp_def]
      | cons next others => simp [joinBranches]
    | bar => rw [List.cons_append, branches, ih, branches, heq, joinBranches]

theorem branches_map_item (items : List Regex) : branches (items.map item) = [items] := by
  induction items with
  | nil => rfl
  | cons regex items ih => rw [List.map_cons, branches, ih, List.modifyHead_cons]

end Piece

/-- An item as often as a quantifier asks for. -/
def Quantifier.loop : Quantifier → Regex → Regex
  | exactlyOne, item => item
  | optional, item => .loop .optional true item
  | oneOrMore, item => .loop .oneOrMore true item
  | zeroOrMore, item => .loop .zeroOrMore true item

/-- The choice between the branches of a flattened pattern. -/
def Piece.tree (pieces : List Piece) : Regex :=
  .ofBranches (branches pieces)

namespace Pattern

mutual

/-- A pattern flattened. A group becomes one item, which nothing outside it divides. -/
def pieces : Pattern → List Piece
  | note spec => spec.items.map .item
  | sequence children => sequencePieces children
  | alternation branches => branchesPieces branches
  | group children bounds =>
    [.item (bounds.usedQuantifier.loop (.group true (Piece.tree (sequencePieces children))))]

/-- The children of a node flattened. -/
def sequencePieces : List Pattern → List Piece
  | [] => []
  | child :: children => child.pieces ++ sequencePieces children

/-- The branches of an alternation flattened, with a bar between any two. -/
def branchesPieces : List (List Pattern) → List Piece
  | [] => []
  | [branch] => sequencePieces branch
  | branch :: branches => sequencePieces branch ++ .bar :: branchesPieces branches

end

/-- The syntax tree of the expression of a pattern. -/
def syntaxTree (pattern : Pattern) : Regex :=
  Piece.tree pattern.pieces

end Pattern

/-- What holds of the items of notes and of groups holds of what is put together from them. -/
structure Piece.Compositional (holds : List Regex → Prop) : Prop where
  nil : holds []
  append {first second : List Regex} (hfirst : holds first) (hsecond : holds second) :
    holds (first ++ second)
  note (note : NotePattern) : holds note.items
  group (quantifier : Quantifier) {pieces : List Piece}
    (hpieces : ∀ items ∈ branches pieces, holds items) :
    holds [quantifier.loop (.group true (tree pieces))]

namespace Pattern

variable {holds : List Regex → Prop}

mutual

/-- What is compositional holds of the branches of all patterns. -/
theorem holds_of_mem_branches (h : Piece.Compositional holds) : (pattern : Pattern) →
    ∀ items ∈ Piece.branches pattern.pieces, holds items
  | note spec => by
    rw [pieces, Piece.branches_map_item]
    exact List.forall_mem_singleton.mpr (h.note spec)
  | sequence children => holds_of_mem_sequencePieces h children
  | alternation branches => holds_of_mem_branchesPieces h branches
  | group children bounds =>
    List.forall_mem_singleton.mpr
      (h.group bounds.usedQuantifier (holds_of_mem_sequencePieces h children))

theorem holds_of_mem_sequencePieces (h : Piece.Compositional holds) : (children : List Pattern) →
    ∀ items ∈ Piece.branches (sequencePieces children), holds items
  | [] => List.forall_mem_singleton.mpr h.nil
  | child :: children => by
    rw [sequencePieces, Piece.branches_append]
    exact forall_mem_joinBranches h.append (holds_of_mem_branches h child)
      (holds_of_mem_sequencePieces h children)

theorem holds_of_mem_branchesPieces (h : Piece.Compositional holds) :
    (branches : List (List Pattern)) →
    ∀ items ∈ Piece.branches (branchesPieces branches), holds items
  | [] => List.forall_mem_singleton.mpr h.nil
  | [branch] => holds_of_mem_sequencePieces h branch
  | branch :: next :: branches => by
    rw [branchesPieces, Piece.branches_append]
    · exact forall_mem_joinBranches h.append (holds_of_mem_sequencePieces h branch)
        (List.forall_mem_cons.mpr ⟨h.nil, holds_of_mem_branchesPieces h (next :: branches)⟩)
    · simp

end

end Pattern

end MotifSearch
