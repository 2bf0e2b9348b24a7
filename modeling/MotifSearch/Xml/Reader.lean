import MotifSearch.Xml.Aside
import MotifSearch.Xml.Element
import MotifSearch.Xml.Entity

/-!
# Reading elements

The text from the root element on is read one character at a time. The reader remembers where in
the markup it is and tells the builder about each complete tag. The text of an entity is read in the
same way at the place of the reference, starting in character data. Elements need not be closed in
the text in which they were opened; but an end tag for an element that was opened outside the text of
an entity ends that text, and is allowed only after a start tag in it. The text of an entity may also
end within a start tag, right after the name or after an attribute, which gives up the start tag but
not its attributes.

## Main definitions

* `Mode` — where in the markup the reader is
* `Reader` — a reader with what it has read
* `Reader.step` — read one more character
* `Reader.run` — read a text

## Main results

* `run_append` — a text is read part by part
-/

namespace MotifSearch.Xml

/-- Where in the markup a reader is. Texts that are read character by character are kept in
reverse. -/
inductive Mode where
  /-- In character data, after a number of closing brackets, more than two counting as two. -/
  | text (brackets : Nat)
  /-- In a reference. -/
  | reference (seen : List Char)
  /-- After an opening angle bracket. -/
  | opened
  /-- After the exclamation mark that follows it, and what has been read since, not reversed. -/
  | exclamation (seen : List Char)
  | aside (aside : Aside)
  | startName (seen : List Char)
  /-- In a start tag, and whether a blank comes before. -/
  | inTag (tag : QName) (blank : Bool)
  | attributeName (tag : QName) (seen : List Char)
  /-- After the name of an attribute, and whether the equals sign has been read. -/
  | afterName (tag : QName) (name : QName) (equals : Bool)
  | attributeValue (tag : QName) (name : QName) (quote : Char) (seen : List Char)
  /-- After the slash of a start tag that is an end tag at the same time. -/
  | closingTag (tag : QName)
  | endName (seen : List Char)
  | afterEndName (name : QName)
  /-- After the end tag that ends the text of an entity. -/
  | ended
  deriving DecidableEq

/-- A reader with what it has read. -/
structure Reader where
  mode : Mode
  /-- How many elements the present text has opened and not closed. -/
  level : Nat
  /-- Whether there has been a start tag in the present text. -/
  begun : Bool
  builder : Builder
  /-- How many references have been followed below the present reference of the document. -/
  references : Nat

/-- How a text is read: whether it is the text of an entity, and what the references in its
character data and in its attribute values stand for. -/
structure Reading where
  nested : Bool
  entityText : List Char → Reader → Except XmlError Reader
  value : List Char → Nat → Except XmlError (List Char × Nat)

namespace Reader

/-- A reader at the beginning of a document. -/
def start : Reader :=
  { mode := .text 0, level := 0, begun := false, builder := .empty, references := 0 }

/-- Go on in another mode. -/
def goOn (reader : Reader) (mode : Mode) : Except XmlError Reader :=
  .ok { reader with mode }

/-- Whether the reader is inside an element, or in the text of an entity and so inside one too. -/
def isInside (reader : Reader) (reading : Reading) : Bool :=
  reading.nested || reader.level != 0

/-- Open an element. The document has one root element. -/
def openElement (reader : Reader) (reading : Reading) (tag : QName) : Except XmlError Reader := do
  if !reader.isInside reading ∧ reader.begun then .error .misplacedMarkup
  let builder ← reader.builder.openTag tag
  .ok { reader with mode := .text 0, level := reader.level + 1, begun := true, builder }

/-- Close an element. -/
def closeElement (reader : Reader) (reading : Reading) (name : QName) :
    Except XmlError Reader := do
  let builder ← reader.builder.closeTag name
  -- An element that was opened outside the text of an entity may end in it, but ends the text, too.
  if reader.level = 0 then
    if reading.nested && reader.begun then .ok { reader with mode := .ended, builder }
    else .error .mismatchedEndTag
  else .ok { reader with mode := .text 0, level := reader.level - 1, builder }

/-- Read a character of character data. -/
def stepText (reader : Reader) (reading : Reading) (brackets : Nat) (c : Char) :
    Except XmlError Reader :=
  if c = '<' then reader.goOn .opened
  else if !reader.isInside reading then
    if isBlank c then .ok reader else .error .misplacedText
  else if c = '&' then reader.goOn (.reference [])
  else if c = '>' ∧ brackets = 2 then .error .misplacedText
  else if c = ']' then reader.goOn (.text (min 2 (brackets + 1)))
  else if isAllowed c then reader.goOn (.text 0)
  else .error .badCharacter

/-- Read the semicolon that ends a reference in character data. -/
def endReference (reader : Reader) (reading : Reading) (seen : List Char) :
    Except XmlError Reader := do
  match ← Reference.ofText seen.reverse with
  | .char _ => reader.goOn (.text 0)
  | .entity name =>
    let references ← countReference reading.nested reader.references
    -- Elements go on from one text to the other, unlike what else the reader knows.
    let inner ← reading.entityText name { reader with references }
    .ok { reader with
      mode := .text 0
      builder := inner.builder
      references := if reading.nested then inner.references else 0 }

/-- Read a character after an opening angle bracket. -/
def stepOpened (reader : Reader) (c : Char) : Except XmlError Reader :=
  if c = '!' then reader.goOn (.exclamation [])
  else if c = '?' then reader.goOn (.aside (.target []))
  else if c = '/' then reader.goOn (.endName [])
  else if isNameChar c then reader.goOn (.startName [c])
  else .error .badTag

/-- Read a character of the mark that begins a comment or a literal section. -/
def stepExclamation (reader : Reader) (reading : Reading) (seen : List Char) (c : Char) :
    Except XmlError Reader :=
  let mark := seen ++ [c]
  if mark = "--".toList then reader.goOn (.aside (.comment 0))
  else if mark = "[CDATA[".toList then
    if reader.isInside reading then reader.goOn (.aside (.literal 0)) else .error .misplacedText
  else if mark = ['-'] ∨ mark.isPrefixOf "[CDATA[".toList then reader.goOn (.exclamation mark)
  else .error .badDeclaration

/-- The name of a start tag, whose qualifier may not be the one of declarations. -/
def tagName (text : List Char) : Except XmlError QName := do
  let name ← QName.ofText text
  if name.qualifier = "xmlns".toList then .error .badName else .ok name

/-- Read a character of a start tag between its attributes. -/
def stepInTag (reader : Reader) (reading : Reading) (tag : QName) (blank : Bool) (c : Char) :
    Except XmlError Reader :=
  if isBlank c then reader.goOn (.inTag tag true)
  else if c = '/' then reader.goOn (.closingTag tag)
  else if c = '>' then reader.openElement reading tag
  else if blank && isNameChar c then reader.goOn (.attributeName tag [c])
  else .error .badTag

/-- Read a character between the name of an attribute and its value. -/
def stepAfterName (reader : Reader) (tag : QName) (name : QName) (equals : Bool) (c : Char) :
    Except XmlError Reader :=
  if isBlank c then reader.goOn (.afterName tag name equals)
  else if !equals then
    if c = '=' then reader.goOn (.afterName tag name true) else .error .badAttribute
  else if c = '"' ∨ c = '\'' then reader.goOn (.attributeValue tag name c [])
  else .error .badAttribute

/-- Read a character of an attribute value. -/
def stepValue (reader : Reader) (reading : Reading) (tag : QName) (name : QName) (quote : Char)
    (seen : List Char) (c : Char) : Except XmlError Reader := do
  if c = quote then
    let (value, references) ← reading.value seen.reverse reader.references
    let builder := reader.builder.addAttribute name value
    .ok { reader with mode := .inTag tag false, builder, references }
  else if c = '<' then .error .badAttribute
  else if isAllowed c then reader.goOn (.attributeValue tag name quote (c :: seen))
  else .error .badCharacter

/-- Read a character after the name of an end tag. -/
def stepAfterEndName (reader : Reader) (reading : Reading) (name : QName) (c : Char) :
    Except XmlError Reader :=
  if isBlank c then reader.goOn (.afterEndName name)
  else if c = '>' then reader.closeElement reading name
  else .error .badTag

/-- Read one more character. -/
def step (reading : Reading) (reader : Reader) (c : Char) : Except XmlError Reader :=
  match reader.mode with
  | .text brackets => reader.stepText reading brackets c
  | .reference seen =>
    if c = ';' then reader.endReference reading seen else reader.goOn (.reference (c :: seen))
  | .opened => reader.stepOpened c
  | .exclamation seen => reader.stepExclamation reading seen c
  | .aside aside => do
    match ← aside.step c with
    | some aside => reader.goOn (.aside aside)
    | none => reader.goOn (.text 0)
  | .startName seen =>
    if isNameChar c then reader.goOn (.startName (c :: seen))
    else do
      let tag ← tagName seen.reverse
      reader.stepInTag reading tag false c
  | .inTag tag blank => reader.stepInTag reading tag blank c
  | .attributeName tag seen =>
    if isNameChar c then reader.goOn (.attributeName tag (c :: seen))
    else do
      let name ← QName.ofText seen.reverse
      reader.stepAfterName tag name false c
  | .afterName tag name equals => reader.stepAfterName tag name equals c
  | .attributeValue tag name quote seen => reader.stepValue reading tag name quote seen c
  | .closingTag tag => do
    if c = '>' then
      let opened ← reader.openElement reading tag
      opened.closeElement reading tag
    else .error .badTag
  | .endName seen =>
    if isNameChar c then reader.goOn (.endName (c :: seen))
    else do
      let name ← QName.ofText seen.reverse
      reader.stepAfterEndName reading name c
  | .afterEndName name => reader.stepAfterEndName reading name c
  | .ended => .ok reader

/-- Read a text. -/
def run (reading : Reading) : Reader → List Char → Except XmlError Reader
  | reader, [] => .ok reader
  | reader, c :: text => do run reading (← reader.step reading c) text

/-- A text is read part by part. -/
theorem run_append (reading : Reading) (reader : Reader) (first second : List Char) :
    run reading reader (first ++ second) =
      (run reading reader first).bind fun reader => run reading reader second := by
  induction first generalizing reader with
  | nil => rfl
  | cons c rest ih =>
    simp only [List.cons_append, run, bind, Except.bind]
    cases reader.step reading c with
    | error e => rfl
    | ok next => simpa [Except.bind] using ih next

/-- Whether the text of an entity may end here. -/
def mayEndEntity (reader : Reader) : Bool :=
  match reader.mode with
  | .text _ | .ended | .inTag _ false => true
  | .startName seen => (tagName seen.reverse).isOk
  | _ => false

/-- Whether a document may end here. -/
def mayEndDocument (reader : Reader) : Bool :=
  match reader.mode with
  | .text _ => true
  | _ => false

end Reader

/-- How a text is read if entities may be opened `levels` deep below it. -/
def reading (entities : Entities) : (levels : Nat) → (nested : Bool) → Reading
  | 0, nested =>
    { nested
      entityText := fun _ _ => .error .entityLoop
      value := expandValue entities 0 nested }
  | levels + 1, nested =>
    { nested
      entityText := fun name reader => do
        let text ← entities.text name
        let reader : Reader := { reader with mode := .text 0, level := 0, begun := false }
        let inner ← reader.run (reading entities levels true) text
        if inner.mayEndEntity then .ok inner else .error .unexpectedEnd
      value := expandValue entities (levels + 1) nested }

end MotifSearch.Xml
