import MotifSearch.Markup.Error
import MotifSearch.Markup.Vocabulary
import MotifSearch.Xml.Document

/-!
# The place of a pattern in a document

The elements of a pattern are the children of a layer, at the end of a fixed path of local names
from the root of an MEI document.

## Main definitions

* `Markup.containerPath` — the path
* `Markup.containers` — the elements at the end of the path, in document order
* `Markup.container` — the only one of them

## Main results

* `container_eq_ok_iff` — there is a container exactly if there is only one
-/

namespace MotifSearch.Markup

open Xml (Element)

/-- The local names on the way from the root element, which comes first, to a container. -/
def containerPath : List (List Char) :=
  ["mei".toList, "music".toList, "body".toList, "mdiv".toList, "score".toList, "section".toList,
    "measure".toList, "staff".toList, "layer".toList]

/-- The children with a local name. -/
def childrenNamed (name : List Char) (element : Element) : List Element :=
  element.children.filter fun child => localName child == name

/-- The elements that a path of local names leads to, going down one level for each name. -/
def follow (path : List (List Char)) (elements : List Element) : List Element :=
  path.foldl (fun elements name => elements.flatMap (childrenNamed name)) elements

/-- The elements at the end of the path. -/
def containers (root : Element) : List Element :=
  match containerPath with
  | [] => []
  | name :: path => if localName root = name then follow path [root] else []

/-- The element at the end of the path, if there is only one. -/
def container (root : Element) : Except PatternError Element :=
  match containers root with
  | [element] => .ok element
  | elements => .error (.containerCount elements.length)

theorem container_eq_ok_iff {root element : Element} :
    container root = .ok element ↔ containers root = [element] := by
  unfold container
  split
  · next heq => simp [heq]
  · next hne =>
    constructor
    · intro h
      cases h
    · intro h
      exact absurd h (hne element)

/-- The root element of the document of a text. -/
def parse (document : List Char) : Except PatternError Element :=
  (Xml.parse document).mapError PatternError.invalidXml

end MotifSearch.Markup
