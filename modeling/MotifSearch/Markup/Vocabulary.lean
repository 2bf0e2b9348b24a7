import MotifSearch.Markup.Document
import MotifSearch.Xml.Element

/-!
# The vocabulary of pattern markup

Elements are told apart by their local names; the namespace only matters for the query vocabulary.
Attributes of notes and groups have no namespace, and the flags that leave a property of a note open
have the query namespace.

## Main definitions

* `Markup.isQuery` — whether an element belongs to the query vocabulary
* `Markup.displayName` — how messages show an element
* `Markup.attribute?`, `Markup.flag` — the attributes and flags of an element
* `Markup.isChoice` — whether an element separates the branches of an alternation
-/

namespace MotifSearch.Markup

open Xml (Element)

/-- The local name of an element. -/
def localName (element : Element) : List Char :=
  element.name.localPart

/-- Whether an element belongs to the query vocabulary. -/
def isQuery (element : Element) : Bool :=
  element.name.namespaceUri == some queryUri

/-- How messages show an element: by its local name, with a qualifier in the query vocabulary. -/
def displayName (element : Element) : List Char :=
  if isQuery element then "query:".toList ++ localName element else localName element

/-- The value of an attribute without a namespace. -/
def attribute? (element : Element) (name : String) : Option (List Char) :=
  element.attribute? ⟨none, name.toList⟩

/-- Whether a flag is set, which takes the value `true` exactly. -/
def flag (element : Element) (name : String) : Bool :=
  element.attribute? ⟨some queryUri, name.toList⟩ == some "true".toList

/-- Whether an element separates the branches of an alternation. -/
def isChoice (element : Element) : Bool :=
  isQuery element && localName element == "or".toList

end MotifSearch.Markup
