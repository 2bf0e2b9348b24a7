/-!
# Why a document is refused

## Main definitions

* `XmlError` — the causes
* `XmlError.message` — a cause in words
-/

namespace MotifSearch

/-- Why a text is not a well-formed document. -/
inductive XmlError where
  | badCharacter
  | badName
  | badReference
  | unknownEntity
  | entityLoop
  | badAttribute
  | badTag
  | badComment
  | badDeclaration
  | badDoctype
  | misplacedText
  | misplacedMarkup
  | mismatchedEndTag
  | unclosedElement
  | unexpectedEnd
  | unboundPrefix
  | reservedNamespace
  | duplicatePrefix
  | duplicateAttribute
  | noRoot
  deriving DecidableEq

/-- A cause in words. -/
def XmlError.message : XmlError → String
  | badCharacter => "a character that documents may not hold"
  | badName => "invalid name"
  | badReference => "malformed reference"
  | unknownEntity => "reference to an unknown entity"
  | entityLoop => "too many nested entity references"
  | badAttribute => "malformed attribute"
  | badTag => "malformed tag"
  | badComment => "malformed comment"
  | badDeclaration => "malformed or misplaced declaration"
  | badDoctype => "malformed document type declaration"
  | misplacedText => "text outside the root element"
  | misplacedMarkup => "markup outside the root element"
  | mismatchedEndTag => "an end tag without its start tag"
  | unclosedElement => "an element is not closed"
  | unexpectedEnd => "unexpected end of the document"
  | unboundPrefix => "unknown namespace prefix"
  | reservedNamespace => "a reserved namespace or prefix is declared"
  | duplicatePrefix => "a namespace prefix is declared twice"
  | duplicateAttribute => "an attribute is given twice"
  | noRoot => "the document has no root element"

end MotifSearch
