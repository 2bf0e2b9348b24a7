import MotifSearch.Markup.Container
import MotifSearch.Pattern.Compile

/-!
# Patterns from markup

Every element of a pattern is a note, a beam, a group or a choice mark. A beam is a sequence and
groups may be repeated; choice marks split the elements around them into the branches of an
alternation. Attributes that are left out have defaults: a quarter note without dots, the octave 4
if only a letter is given, and c in octave 5 if neither a letter nor an octave is given. The flags
that leave a property open win over the attributes of that property, which are not even read then.

## Main definitions

* `NotePattern.ofElement` — the pattern of a note element
* `Pattern.ofElement`, `Pattern.branchesOfElements` — the patterns of elements
* `Pattern.ofDocument`, `Pattern.ofMarkup` — the pattern of a document, of a text
* `CompiledPattern.ofMarkup` — the compiled pattern of a text

## Main results

* `containsNote_of_ofContainer` — there is a note in every pattern that is accepted
-/

namespace MotifSearch

open Markup (attribute? flag)
open Xml (Element)

/-- The value of an attribute, if it is given: `read` is how it is read, and `fault` is what is
wrong with values that it rejects. -/
def readAttribute {α : Type} (fault : AttributeFault) (read : List Char → Option α)
    (element : Element) : Except PatternError (Option α) :=
  match attribute? element fault.attributeName with
  | none => .ok none
  | some value =>
    match read value with
    | some result => .ok (some result)
    | none => .error (.malformed fault value)

namespace NotePattern

/-- The duration that a note element asks for. -/
def durationOfElement (element : Element) : Except PatternError (Constraint DottedDuration) := do
  if flag element "any-duration" then .ok .any
  else
    let code ← readAttribute .duration DurationCode.ofText? element
    let dots ← readAttribute .dots (fun text => Text.readUInt8 (Text.trim text)) element
    .ok (.exact ⟨code.getD (.denominator 4), dots.getD 0⟩)

/-- The accidental that a note element asks for. -/
def accidentalOfElement (element : Element) : Except PatternError (Constraint Accidental) := do
  if flag element "any-accidental" then .ok .any
  else
    let accidental ← readAttribute .accidental Accidental.ofText? element
    .ok (.exact (accidental.getD .plain))

/-- The letter and the octave that a note element asks for. -/
def letterOfElement (element : Element) : Except PatternError (PitchLetter × Octave) := do
  match ← readAttribute .letter PitchLetter.ofText? element with
  | some letter =>
    let octave ← readAttribute .octave Octave.ofText? element
    .ok (letter, octave.getD (.clamp 4))
  | none =>
    -- An octave needs a letter, even if it is not a number.
    match attribute? element AttributeFault.octave.attributeName with
    | some _ => .error (.malformed .letterMissing [])
    | none => .ok (.c, .clamp 5)

/-- The pitch that a note element asks for. -/
def pitchOfElement (element : Element) : Except PatternError (Constraint PitchPattern) := do
  if flag element "any-pitch" then .ok .any
  else
    let (letter, octave) ← letterOfElement element
    let accidental ← accidentalOfElement element
    .ok (.exact ⟨letter, octave, accidental⟩)

/-- The pattern of a note element. -/
def ofElement (element : Element) : Except PatternError NotePattern := do
  let pitch ← pitchOfElement element
  let duration ← durationOfElement element
  .ok ⟨pitch, duration⟩

end NotePattern

/-- The bounds of a group element. -/
def Bounds.ofElement (element : Element) : Except PatternError Bounds := do
  let count (text : List Char) : Option UInt32 := Text.readUInt32 (Text.trim text)
  let min ← readAttribute .minOccurrences count element
  let max ← readAttribute .maxOccurrences count element
  .ok ⟨min, max⟩

namespace Pattern

/-- What the branches between choice marks are children of a node as: without a choice mark there
is one branch, which is the children itself. -/
def ofBranches : List (List Pattern) → List Pattern
  | [branch] => branch
  | branches => [alternation branches]

/-- Put a pattern in front of the first branch. -/
def consBranch (pattern : Pattern) : List (List Pattern) → List (List Pattern)
  | [] => [[pattern]]
  | branch :: branches => (pattern :: branch) :: branches

mutual

/-- The pattern of an element. -/
def ofElement : Element → Except PatternError Pattern
  | element@(.mk _ _ children) => do
    let name := Markup.localName element
    if Markup.isQuery element then
      if name = "group".toList then
        let bounds ← Bounds.ofElement element
        let branches ← branchesOfElements children
        .ok (group (ofBranches branches) bounds)
      else .error (.unknownElement (Markup.displayName element))
    else if name = "note".toList then note <$> NotePattern.ofElement element
    else if name = "beam".toList then
      let branches ← branchesOfElements children
      .ok (sequence (ofBranches branches))
    else .error (.unknownElement (Markup.displayName element))

/-- The branches of a list of elements: their patterns, split at the choice marks. -/
def branchesOfElements : List Element → Except PatternError (List (List Pattern))
  | [] => .ok [[]]
  | element :: elements => do
    if Markup.isChoice element then
      let branches ← branchesOfElements elements
      .ok ([] :: branches)
    else
      let pattern ← ofElement element
      let branches ← branchesOfElements elements
      .ok (consBranch pattern branches)

end

/-- The pattern of a container, which has to hold a note. -/
def ofContainer (container : Element) : Except PatternError Pattern := do
  let branches ← branchesOfElements container.children
  let pattern := sequence (ofBranches branches)
  if pattern.containsNote then .ok pattern else .error .empty

/-- The pattern of a document. -/
def ofDocument (document : List Char) : Except PatternError Pattern := do
  let root ← Markup.parse document
  let container ← Markup.container root
  ofContainer container

/-- The pattern of a document or of a fragment. -/
def ofMarkup (markup : List Char) : Except PatternError Pattern :=
  ofDocument (Markup.toDocument markup)

/-- There is a note in every pattern that is accepted. -/
theorem containsNote_of_ofContainer {container : Element} {pattern : Pattern}
    (h : ofContainer container = .ok pattern) : pattern.containsNote = true := by
  unfold ofContainer at h
  cases hbranches : branchesOfElements container.children with
  | error e => simp [hbranches, bind, Except.bind] at h
  | ok branches =>
    simp only [hbranches, bind, Except.bind] at h
    split at h
    · next hnote =>
      cases h
      exact hnote
    · cases h

end Pattern

/-- The compiled pattern of a document or of a fragment. -/
def CompiledPattern.ofMarkup (markup : List Char) : Except PatternError CompiledPattern :=
  Pattern.compile <$> Pattern.ofMarkup markup

end MotifSearch
