import MotifSearch.Xml.Prolog
import MotifSearch.Xml.Reader

/-!
# Documents

## Main definitions

* `Xml.parse` — the root element of a document

## Main results

* `parse_of_startTag` — a document that begins with its root element is read without a prolog
-/

namespace MotifSearch.Xml

/-- The root element of the text from its start tag on. -/
def parseRoot (entities : Entities) (text : List Char) : Except XmlError Element := do
  let reader ← Reader.start.run (reading entities entityDepthLimit false) text
  if reader.mayEndDocument then reader.builder.root else .error .unexpectedEnd

/-- The root element of a document. -/
def parse (text : List Char) : Except XmlError Element := do
  let (entities, rest) ← readProlog text
  parseRoot entities rest

/-- A document that begins with its root element is read without a prolog. -/
theorem parse_of_startTag {c : Char} {rest : List Char} (hbang : c ≠ '!') (hquestion : c ≠ '?') :
    parse ('<' :: c :: rest) = parseRoot [] ('<' :: c :: rest) := by
  simp [parse, readProlog_of_startTag hbang hquestion, bind, Except.bind]

end MotifSearch.Xml
