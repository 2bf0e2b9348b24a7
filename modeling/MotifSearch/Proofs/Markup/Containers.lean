import MotifSearch.Markup.Container
import MotifSearch.Proofs.Xml.Actions

/-!
# Counting containers while a document is read

A container is complete once its end tag has been read. Reading never takes one away, and the end
tag of an open element adds one exactly if the open elements are all those of the path.

## Main definitions

* `remaining` — the rest of the path below elements with given local names
* `countAmong` — the number of containers in elements of which a rest of the path is left
* `completed` — the number of containers among the elements that have been read

## Main results

* `completed_openTag`, `completed_closeTag` — what a tag does to their number
* `length_containers` — the containers of a root element are the completed ones
-/

namespace MotifSearch.Markup

open Xml (Element Frame Builder QName Reader plainReading)

/-- One name of a path less, if it is the next one. -/
def descend (name : List Char) : List (List Char) → Option (List (List Char))
  | [] => none
  | expected :: path => if name = expected then some path else none

/-- What is left of the path to a container below elements with given local names, the innermost
first, if they are on it. -/
def remaining : List (List Char) → Option (List (List Char))
  | [] => some containerPath
  | name :: names => (remaining names).bind (descend name)

/-- The number of containers that an element itself is, if a rest of the path is left below it. -/
def countSelf : Option (List (List Char)) → Nat
  | some [] => 1
  | _ => 0

/-- The number of containers among elements, if a rest of the path leads to them. -/
def countAmong : Option (List (List Char)) → List Element → Nat
  | some (name :: path), elements =>
    (follow path (elements.filter fun element => localName element == name)).length
  | _, _ => 0

@[simp] theorem countAmong_end (elements : List Element) : countAmong (some []) elements = 0 := rfl

theorem follow_append (path : List (List Char)) (first second : List Element) :
    follow path (first ++ second) = follow path first ++ follow path second := by
  induction path generalizing first second with
  | nil => rfl
  | cons name path ih =>
    simp only [follow, List.foldl_cons, List.flatMap_append] at ih ⊢
    exact ih ..

@[simp] theorem follow_nil (path : List (List Char)) : follow path [] = [] := by
  induction path with
  | nil => rfl
  | cons name path ih => exact ih

section Count

variable (path : Option (List (List Char)))

@[simp] theorem countAmong_nil : countAmong path [] = 0 := by
  rcases path with _ | _ | ⟨name, path⟩
  · rfl
  · rfl
  · simp [countAmong]

theorem countAmong_append (first second : List Element) :
    countAmong path (first ++ second) = countAmong path first + countAmong path second := by
  rcases path with _ | _ | ⟨name, path⟩
  · rfl
  · rfl
  · simp [countAmong, follow_append]

theorem countAmong_reverse (elements : List Element) :
    countAmong path elements.reverse = countAmong path elements := by
  induction elements with
  | nil => rfl
  | cons element elements ih =>
    rw [List.reverse_cons, countAmong_append, ih, Nat.add_comm, ← countAmong_append,
      List.singleton_append]

end Count

theorem countAmong_cons_singleton (name : List Char) (path : List (List Char)) (element : Element) :
    countAmong (some (name :: path)) [element] =
      if localName element = name then (follow path [element]).length else 0 := by
  simp only [countAmong, List.filter_cons, beq_iff_eq, List.filter_nil]
  split
  · rfl
  · rw [follow_nil, List.length_nil]

/-- A closed element is a container itself or has containers in it. -/
theorem countAmong_close (path : Option (List (List Char))) (frame : Frame) :
    countAmong path [frame.close] =
      countSelf (path.bind (descend frame.name.localPart)) +
        countAmong (path.bind (descend frame.name.localPart)) frame.children := by
  rcases path with _ | _ | ⟨name, path⟩
  · rfl
  · rfl
  · rw [countAmong_cons_singleton, Option.bind_some, descend]
    change (if frame.name.localPart = name then _ else _) = _
    split
    · rcases path with _ | ⟨next, path⟩
      · rfl
      · rw [← countAmong_reverse _ frame.children]
        simp [countSelf, countAmong, follow, childrenNamed, Frame.close, Element.children]
    · rfl

/-- The number of complete containers inside of open elements. -/
def completedIn : List Frame → Nat
  | [] => 0
  | frame :: frames =>
    countAmong (remaining ((frame :: frames).map (·.name.localPart))) frame.children +
      completedIn frames

/-- The number of containers among the elements that have been read completely. -/
def completed (builder : Builder) : Nat :=
  completedIn builder.frames + countAmong (remaining []) builder.roots

/-- The local names of the open elements, the innermost first. -/
def openNames (builder : Builder) : List (List Char) :=
  builder.frames.map (·.name.localPart)

theorem completed_add (builder : Builder) (element : Element) :
    completed (builder.add element) =
      completed builder + countAmong (remaining (openNames builder)) [element] := by
  obtain ⟨frames, roots, pending⟩ := builder
  cases frames with
  | nil =>
    have happend := countAmong_append (remaining []) [element] roots
    simp only [completed, Builder.add, openNames, List.map_nil, completedIn] at happend ⊢
    rw [List.singleton_append] at happend
    omega
  | cons frame frames =>
    have happend := countAmong_append (remaining ((frame :: frames).map (·.name.localPart)))
      [element] frame.children
    simp only [completed, Builder.add, openNames, List.map_cons, completedIn] at happend ⊢
    rw [List.singleton_append] at happend
    omega

variable {builder next : Builder} {tag : QName}

/-- A start tag completes nothing. -/
theorem completed_openTag (h : builder.openTag tag = .ok next) :
    completed next = completed builder := by
  obtain ⟨frame, -, -, hchildren, rfl⟩ := Builder.exists_of_openTag_eq_ok h
  simp [completed, completedIn, hchildren]

/-- An end tag completes a container if the open elements are those of the path. -/
theorem completed_closeTag (h : builder.closeTag tag = .ok next) :
    completed next = completed builder + countSelf (remaining (openNames builder)) := by
  obtain ⟨frame, frames, hframes, -, rfl⟩ := Builder.exists_of_closeTag_eq_ok h
  rw [completed_add, countAmong_close]
  simp only [completed, openNames, hframes, completedIn, List.map_cons, remaining]
  omega

/-- No action takes a completed container away. -/
theorem completed_le_of_action {action : Builder.Action} (h : action.run builder = .ok next) :
    completed builder ≤ completed next := by
  cases action with
  | keep =>
    cases h
    exact Nat.le_refl _
  | addAttribute name value =>
    cases h
    exact Nat.le_refl _
  | openTag tag => exact Nat.le_of_eq (completed_openTag h).symm
  | closeTag tag =>
    rw [completed_closeTag h]
    exact Nat.le_add_right ..
  | emptyTag tag =>
    obtain ⟨opened, hopened, hclosed⟩ := Except.exists_of_bind_eq_ok h
    rw [completed_closeTag hclosed, completed_openTag hopened]
    exact Nat.le_add_right ..

/-- Reading takes no completed container away. -/
theorem completed_le_of_run {reader last : Reader} {text : List Char}
    (hbegun : reader.begun = true) (h : reader.run plainReading text = .ok last) :
    completed reader.builder ≤ completed last.builder :=
  Reader.le_of_run completed_le_of_action hbegun h

/-- Where none has been completed in the end, none has been before. -/
theorem completed_eq_zero_of_run {reader last : Reader} {text : List Char}
    (hlast : completed last.builder = 0) (hbegun : reader.begun = true)
    (h : reader.run plainReading text = .ok last) : completed reader.builder = 0 :=
  Nat.le_zero.mp (hlast ▸ completed_le_of_run hbegun h)

/-- The path begins at the root element. -/
theorem containers_eq (root : Element) : containers root =
    if localName root = "mei".toList then follow containerPath.tail [root] else [] := rfl

/-- The containers of a root element are the completed ones. -/
theorem length_containers (root : Element) :
    (containers root).length = completed ⟨[], [root], []⟩ := by
  rw [containers_eq, completed, completedIn, Nat.zero_add, remaining, containerPath,
    countAmong_cons_singleton]
  split <;> rfl

end MotifSearch.Markup
