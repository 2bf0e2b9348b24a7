import MotifSearch.Xml.Chars
import MotifSearch.Xml.Error

/-!
# Names and namespaces

A name in a tag has a local part and perhaps a qualifier before it. What the qualifier stands for
depends on the declarations of the element and of those around it; the name that results consists
of a namespace and the local part.

## Main definitions

* `QName`, `QName.ofText` — a name as it is written
* `Name` — a name with its namespace
* `Scope` — the declarations in force, with `Scope.elementName` and `Scope.attributeName`

## Main results

* `attributeName_of_unqualified` — an attribute without a qualifier has no namespace
-/

namespace MotifSearch.Xml

/-- A name as it is written; an empty qualifier is none. -/
structure QName where
  qualifier : List Char
  localPart : List Char
  deriving DecidableEq

/-- The name that a text spells: two parts around a colon or one part alone, each beginning as a
name does. The part before the colon may be empty. -/
def QName.ofText (text : List Char) : Except XmlError QName :=
  let (qualifier, localPart) := match text.dropWhile (· ≠ ':') with
    | [] => ([], text)
    | _ :: localPart => (text.takeWhile (· ≠ ':'), localPart)
  if ':' ∈ localPart ∨ localPart = [] then .error .badName
  else if localPart.head?.all isNameStart && qualifier.head?.all isNameStart then
    .ok ⟨qualifier, localPart⟩
  else .error .badName

/-- A name with its namespace, if it has one. -/
structure Name where
  namespaceUri : Option (List Char)
  localPart : List Char
  deriving DecidableEq

/-- The namespace of the qualifier `xml`. -/
def xmlUri : List Char := "http://www.w3.org/XML/1998/namespace".toList

/-- The namespace of the qualifier `xmlns`. -/
def xmlnsUri : List Char := "http://www.w3.org/2000/xmlns/".toList

/-- The qualifiers that are bound at some place and their namespaces, inner declarations first.
The empty qualifier stands for the default namespace. -/
abbrev Scope := List (List Char × List Char)

namespace Scope

/-- The namespace that a qualifier is bound to. -/
def find? (scope : Scope) (qualifier : List Char) : Option (List Char) :=
  scope.lookup qualifier

/-- The name of an element: without a qualifier it is in the default namespace, if there is one. -/
def elementName (scope : Scope) (name : QName) : Except XmlError Name :=
  match scope.find? name.qualifier with
  | some uri => .ok ⟨some uri, name.localPart⟩
  | none => if name.qualifier = [] then .ok ⟨none, name.localPart⟩ else .error .unboundPrefix

/-- The name of an attribute: without a qualifier it has no namespace, and the qualifier `xml` is
always bound. -/
def attributeName (scope : Scope) (name : QName) : Except XmlError Name :=
  if name.qualifier = [] then .ok ⟨none, name.localPart⟩
  else if name.qualifier = "xml".toList then .ok ⟨some xmlUri, name.localPart⟩
  else
    match scope.find? name.qualifier with
    | some uri => .ok ⟨some uri, name.localPart⟩
    | none => .error .unboundPrefix

theorem attributeName_of_unqualified (scope : Scope) (localPart : List Char) :
    scope.attributeName ⟨[], localPart⟩ = .ok ⟨none, localPart⟩ := by
  simp [attributeName]

end Scope

end MotifSearch.Xml
