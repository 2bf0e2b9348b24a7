import Mathlib.Data.List.Basic
import MotifSearch.Proofs.Markup.Containers

/-!
# The places of containers

An element has an address in its document: which child to go to, level by level from the root
element down. An element comes before another one in the document if its address comes first in the
order of dictionaries. Going down the path to the containers one name at a time, level by level,
finds the same elements as going through all addresses in this order and taking those to which the
names of the path lead.

## Main definitions

* `elementAt`, `namesTo` — the element at an address, and the local names on the way
* `placesBelow` — the addresses to which names lead

## Main results

* `mem_placesBelow_iff`, `pairwise_placesBelow` — which addresses these are, and in which order
* `map_elementAt_placesBelow` — the elements there are those that are found level by level
* `IsEveryPlace` — what all of this says of the containers
-/

namespace MotifSearch.Markup

open Xml (Element)

/-- The element at an address below an element. -/
def elementAt : Element → List Nat → Option Element
  | element, [] => some element
  | element, i :: address => element.children[i]?.bind (elementAt · address)

/-- The local names on the way from an element down to an address, without its own. -/
def namesBelow : Element → List Nat → Option (List (List Char))
  | _, [] => some []
  | element, i :: address => element.children[i]?.bind fun child =>
    (namesBelow child address).map (localName child :: ·)

/-- The local names on the way from the root element, which comes first, down to an address. -/
def namesTo (root : Element) (address : List Nat) : Option (List (List Char)) :=
  (namesBelow root address).map (localName root :: ·)

/-- The children with a local name, each with its number. -/
def numberedNamed (name : List Char) (element : Element) : List (Element × Nat) :=
  element.children.zipIdx.filter fun child => localName child.1 == name

/-- The addresses below an element to which local names lead, in the order of the document. -/
def placesBelow : List (List Char) → Element → List (List Nat)
  | [], _ => [[]]
  | name :: path, element => (numberedNamed name element).flatMap fun child =>
    (placesBelow path child.1).map (child.2 :: ·)

variable {name : List Char} {path : List (List Char)} {element child : Element}
  {address : List Nat}

theorem mem_numberedNamed_iff {i : Nat} : (child, i) ∈ numberedNamed name element ↔
    element.children[i]? = some child ∧ localName child = name := by
  rw [numberedNamed, List.mem_filter, List.mem_zipIdx_iff_getElem?, beq_iff_eq]

theorem map_fst_numberedNamed (name : List Char) (element : Element) :
    (numberedNamed name element).map Prod.fst = childrenNamed name element := by
  conv_rhs => rw [childrenNamed, ← List.zipIdx_map_fst 0 element.children, List.filter_map]
  rfl

/-- The numbers of children ascend. -/
theorem pairwise_numberedNamed (name : List Char) (element : Element) :
    (numberedNamed name element).Pairwise (·.2 < ·.2) := by
  apply List.Pairwise.filter
  rw [← List.pairwise_map, List.zipIdx_map_snd]
  exact List.pairwise_lt_range'

/-- Names lead to the addresses with these names on the way. -/
theorem mem_placesBelow_iff :
    address ∈ placesBelow path element ↔ namesBelow element address = some path := by
  induction path generalizing element address with
  | nil =>
    cases address with
    | nil => simp [placesBelow, namesBelow]
    | cons i address => simp [placesBelow, namesBelow, Option.bind_eq_some_iff]
  | cons name path ih =>
    cases address with
    | nil => simp [placesBelow, namesBelow]
    | cons i address =>
      simp only [placesBelow, List.mem_flatMap, List.mem_map, namesBelow, Option.bind_eq_some_iff,
        Option.map_eq_some_iff]
      constructor
      · rintro ⟨⟨child, j⟩, hchild, other, hother, heq⟩
        obtain ⟨rfl, rfl⟩ := List.cons.inj heq
        obtain ⟨hget, hname⟩ := mem_numberedNamed_iff.mp hchild
        exact ⟨child, hget, path, ih.mp hother, by rw [hname]⟩
      · rintro ⟨child, hget, rest, hrest, heq⟩
        obtain ⟨hname, rfl⟩ := List.cons.inj heq
        exact ⟨(child, i), mem_numberedNamed_iff.mpr ⟨hget, hname⟩, address, ih.mpr hrest, rfl⟩

/-- The addresses are in the order of the document, and none of them stands twice. -/
theorem pairwise_placesBelow (path : List (List Char)) (element : Element) :
    (placesBelow path element).Pairwise (· < ·) := by
  induction path generalizing element with
  | nil => exact List.pairwise_singleton _ _
  | cons name path ih =>
    rw [placesBelow, List.pairwise_flatMap]
    constructor
    · intro child _
      rw [List.pairwise_map]
      exact (ih child.1).imp fun hlt => List.cons_lt_cons_iff.mpr (.inr ⟨rfl, hlt⟩)
    · refine (pairwise_numberedNamed name element).imp fun hlt address haddress later hlater => ?_
      obtain ⟨_, -, rfl⟩ := List.mem_map.mp haddress
      obtain ⟨_, -, rfl⟩ := List.mem_map.mp hlater
      exact List.cons_lt_cons_iff.mpr (.inl hlt)

/-- What is found level by level below several elements is found below each of them in turn. -/
theorem follow_eq_flatMap (path : List (List Char)) (elements : List Element) :
    follow path elements = elements.flatMap fun element => follow path [element] := by
  induction elements with
  | nil => exact follow_nil path
  | cons element elements ih =>
    rw [← List.singleton_append, follow_append, ih, List.flatMap_append, List.flatMap_singleton]

/-- The elements that are found level by level are those at the addresses. -/
theorem map_elementAt_placesBelow (path : List (List Char)) (element : Element) :
    (placesBelow path element).map (elementAt element) = (follow path [element]).map some := by
  induction path generalizing element with
  | nil => rfl
  | cons name path ih =>
    -- Below each child of the right name, by its number, the elements are those below the child.
    have hchild : ∀ child ∈ numberedNamed name element,
        ((placesBelow path child.1).map (child.2 :: ·)).map (elementAt element) =
          (follow path [child.1]).map some := by
      rintro ⟨child, i⟩ hmem
      rw [← ih, List.map_map]
      refine List.map_congr_left fun address _ => ?_
      change element.children[i]?.bind _ = _
      rw [(mem_numberedNamed_iff.mp hmem).1, Option.bind_some]
    have hnext : follow (name :: path) [element] = follow path (childrenNamed name element) := by
      rw [follow, List.foldl_cons, List.flatMap_singleton, follow]
    rw [placesBelow, List.map_flatMap, List.flatMap_congr hchild, hnext, follow_eq_flatMap,
      ← map_fst_numberedNamed, List.flatMap_map, List.map_flatMap]

/-- Whether elements are all of those to which names lead from the root element down: each of them
once, and in the order of the document. -/
def IsEveryPlace (root : Element) (names : List (List Char)) (elements : List Element) : Prop :=
  ∃ places : List (List Nat), places.Pairwise (· < ·) ∧
    (∀ address, address ∈ places ↔ namesTo root address = some names) ∧
    places.map (elementAt root) = elements.map some

/-- The containers are the elements to which the path leads. -/
theorem isEveryPlace_containers (root : Element) :
    IsEveryPlace root containerPath (containers root) := by
  have hpath : containerPath = "mei".toList :: containerPath.tail := rfl
  rw [containers_eq]
  by_cases hroot : localName root = "mei".toList
  · rw [if_pos hroot]
    refine ⟨placesBelow containerPath.tail root, pairwise_placesBelow _ root, fun address => ?_,
      map_elementAt_placesBelow _ root⟩
    rw [mem_placesBelow_iff, namesTo, hroot, hpath]
    simp
  · rw [if_neg hroot]
    refine ⟨[], .nil, fun address => ?_, rfl⟩
    rw [namesTo, hpath]
    simp only [List.not_mem_nil, false_iff, Option.map_eq_some_iff, List.cons.injEq, not_exists]
    exact fun names h => hroot h.2.1

end MotifSearch.Markup
