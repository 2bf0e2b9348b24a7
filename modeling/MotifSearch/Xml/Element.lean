import MotifSearch.Xml.Name

/-!
# Elements

Of a document this library needs its elements and their attributes. Elements are collected by a
builder, which is told about attributes, start tags and end tags in the order of the text and keeps
the elements that are still open.

## Main definitions

* `Element` — an element with its attributes and its child elements
* `GivenAttributes` — the attributes of a tag, with `GivenAttributes.bindings` and
  `GivenAttributes.resolve`
* `Builder` — the elements read so far, with `Builder.addAttribute`, `Builder.openTag` and
  `Builder.closeTag`
* `Builder.root` — the root element, once everything is closed

## Main results

* `closeTag_openTag` — opening and closing an element adds one child to the element around it
-/

namespace MotifSearch.Xml

/-- An element. -/
inductive Element where
  | mk (name : Name) (attributes : List (Name × List Char)) (children : List Element)

namespace Element

/-- The name of an element. -/
def name : Element → Name
  | mk name _ _ => name

/-- The attributes of an element, in the order of its start tag. -/
def attributes : Element → List (Name × List Char)
  | mk _ attributes _ => attributes

/-- The child elements of an element, in the order of the document. -/
def children : Element → List Element
  | mk _ _ children => children

/-- The value of the attribute with a given name. -/
def attribute? (element : Element) (name : Name) : Option (List Char) :=
  element.attributes.lookup name

end Element

/-- Attributes as tags give them, references resolved, in the order of the text. -/
abbrev GivenAttributes := List (QName × List Char)

namespace GivenAttributes

/-- Whether an attribute declares a namespace. An unqualified or even a qualified attribute with
the local part `xmlns` declares the default one. -/
def isDeclaration (given : QName × List Char) : Bool :=
  given.1.qualifier == "xmlns".toList || given.1.localPart == "xmlns".toList

/-- The binding that a declaration makes. The namespace of `xml` belongs to that qualifier alone,
the namespace of `xmlns` to none. Binding `xml` anew changes nothing. -/
def binding (given : QName × List Char) : Except XmlError (Option (List Char × List Char)) :=
  let (name, uri) := given
  if uri = xmlnsUri then .error .reservedNamespace
  else if name.qualifier = "xmlns".toList then
    if name.localPart = "xml".toList then
      if uri = xmlUri then .ok none else .error .reservedNamespace
    else if uri = xmlUri then .error .reservedNamespace
    else .ok (some (name.localPart, uri))
  else if uri = xmlUri then .error .reservedNamespace
  else .ok (some ([], uri))

/-- The bindings that attributes make. No qualifier is bound twice, and of several default
namespaces the first one counts. -/
def bindings (attributes : GivenAttributes) : Except XmlError Scope := do
  let bound ← (attributes.filter isDeclaration).mapM binding
  let scope := bound.filterMap id
  let qualifiers := (scope.map Prod.fst).filter (· ≠ [])
  if qualifiers.Nodup then .ok scope else .error .duplicatePrefix

/-- The attributes other than declarations, with their namespaces. No two of them have the same
name. -/
def resolve (attributes : GivenAttributes) (scope : Scope) :
    Except XmlError (List (Name × List Char)) := do
  let resolved ← (attributes.filter (!isDeclaration ·)).mapM fun (name, value) => do
    let name ← scope.attributeName name
    .ok (name, value)
  if (resolved.map Prod.fst).Nodup then .ok resolved else .error .duplicateAttribute

@[simp] theorem bindings_nil : bindings [] = .ok [] := rfl

@[simp] theorem resolve_nil (scope : Scope) : resolve [] scope = .ok [] := rfl

end GivenAttributes

/-- An element whose end tag has not been read. Its children are kept with the latest one first. -/
structure Frame where
  written : QName
  scope : Scope
  name : Name
  attributes : List (Name × List Char)
  children : List Element

/-- The element that an open element becomes when it is closed. -/
def Frame.close (frame : Frame) : Element :=
  .mk frame.name frame.attributes frame.children.reverse

/-- The elements read so far: the open ones, the innermost first, and the complete ones that have
none around them, the latest first. -/
structure Builder where
  frames : List Frame
  roots : List Element
  /-- The attributes that have been read since the last complete tag, the latest first. Attributes
  of a start tag that is given up count for the next complete tag. -/
  pending : GivenAttributes

namespace Builder

/-- A builder that has read nothing. -/
def empty : Builder := ⟨[], [], []⟩

/-- The declarations in force inside the innermost open element. -/
def scope (builder : Builder) : Scope :=
  (builder.frames.head?.map Frame.scope).getD []

/-- Add a complete element to the innermost open one. -/
def add (builder : Builder) (element : Element) : Builder :=
  match builder.frames with
  | [] => { builder with roots := element :: builder.roots }
  | frame :: frames =>
    { builder with frames := { frame with children := element :: frame.children } :: frames }

/-- Read an attribute. -/
def addAttribute (builder : Builder) (name : QName) (value : List Char) : Builder :=
  { builder with pending := (name, value) :: builder.pending }

/-- The declarations in force after the pending attributes, and the other attributes among them. -/
def resolvePending (builder : Builder) : Except XmlError (Scope × List (Name × List Char)) := do
  let given : GivenAttributes := builder.pending.reverse
  let scope := (← given.bindings) ++ builder.scope
  .ok (scope, ← given.resolve scope)

/-- Read the end of a start tag. -/
def openTag (builder : Builder) (written : QName) : Except XmlError Builder := do
  let (scope, attributes) ← builder.resolvePending
  let name ← scope.elementName written
  .ok { builder with
    frames := ⟨written, scope, name, attributes, []⟩ :: builder.frames
    pending := [] }

/-- Read an end tag, which must name the innermost open element as its start tag did. Pending
attributes have to be right, but belong to nothing. -/
def closeTag (builder : Builder) (written : QName) : Except XmlError Builder := do
  let _ ← builder.resolvePending
  match builder.frames with
  | [] => .error .mismatchedEndTag
  | frame :: frames =>
    if frame.written = written then
      .ok (add { builder with frames, pending := [] } frame.close)
    else .error .mismatchedEndTag

/-- The root element, once every element is closed. -/
def root (builder : Builder) : Except XmlError Element :=
  if builder.frames.isEmpty then
    match builder.roots.getLast? with
    | some root => .ok root
    | none => .error .noRoot
  else .error .unclosedElement

/-- Opening and closing an element adds it to the element around it. -/
theorem closeTag_openTag {builder opened : Builder} {written : QName}
    (h : builder.openTag written = .ok opened) :
    ∃ name attributes,
      opened.closeTag written =
        .ok (add { builder with pending := [] } (.mk name attributes [])) := by
  unfold openTag at h
  cases hpending : builder.resolvePending with
  | error e => simp [hpending, bind, Except.bind] at h
  | ok resolved =>
    obtain ⟨scope, attributes⟩ := resolved
    cases hname : scope.elementName written with
    | error e => simp [hpending, hname, bind, Except.bind] at h
    | ok name =>
      simp only [hpending, hname, bind, Except.bind] at h
      cases h
      refine ⟨name, attributes, ?_⟩
      simp [closeTag, resolvePending, Frame.close, bind, Except.bind]

end Builder

end MotifSearch.Xml
