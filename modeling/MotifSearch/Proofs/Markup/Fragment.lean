import MotifSearch.Markup.Pattern
import MotifSearch.Proofs.Markup.Containers
import MotifSearch.Proofs.Xml.EndTags

/-!
# Fragments in the fixed document

The text of a fragment stands in the layer of the fixed document, but nothing keeps it from ending
the layer and from beginning another one. Then the document has two containers and is refused. So a
fragment that is accepted is the content of the one layer, from the first character to the last, and
what it consists of does not depend on what stands in the layer before it.

## Main definitions

* `inLayer` — a reader that has come to some place in the layer
* `ReadsAs` — the elements that a fragment consists of
* `Beside` — the same open elements in a layer with more children and other elements around it

## Main results

* `simulation_beside`, `ReadsAs.exists_run` — the content of a layer is read in the same way after
  other elements
* `exists_readsAs` — in a document with one container, the fragment is the content of the layer
* `exists_readsAs_of_ofMarkup`, `ofMarkup_of_readsAs` — the pattern of a fragment is the pattern of
  its elements
-/

namespace MotifSearch.Markup

open Xml (Element Frame Builder QName Reader plainReading Scope)

/-- The declarations in force everywhere in the fixed document. -/
def wrapperScope : Scope := [([], meiUri), ("query".toList, queryUri)]

/-- An open element of the fixed document, its children in the order of the text. -/
def wrapperFrame (name : String) (attributes : List (String × String)) (children : List Element) :
    Frame where
  written := ⟨[], name.toList⟩
  scope := wrapperScope
  name := ⟨some meiUri, name.toList⟩
  attributes := attributes.map fun given => (⟨none, given.1.toList⟩, given.2.toList)
  children := children.reverse

/-- A complete element of the fixed document. -/
def wrapperElement (name : String) (attributes : List (String × String))
    (children : List Element) : Element :=
  (wrapperFrame name attributes children).close

/-- The open layer, with the elements of the fragment that have been read. -/
def layerFrame (elements : List Element) : Frame :=
  wrapperFrame "layer" [("n", "1")] elements

/-- The open elements around the layer, the innermost first. -/
def outerFrames : List Frame :=
  [
    wrapperFrame "staff" [("n", "1")] [],
    wrapperFrame "measure" [("n", "0")] [],
    wrapperFrame "section" [] [],
    wrapperFrame "score" [] [
      wrapperElement "scoreDef" [] [
        wrapperElement "staffGrp" [] [
          wrapperElement "staffDef"
            [("n", "1"), ("lines", "5"), ("clef.line", "2"), ("clef.shape", "G")] []]]],
    wrapperFrame "mdiv" [] [],
    wrapperFrame "body" [] [],
    wrapperFrame "music" [] [],
    wrapperFrame "mei" [("meiversion", "3.0.0")] [wrapperElement "meiHead" [] []]
  ]

/-- A reader in the layer. -/
def inLayer (brackets : Nat) (elements : List Element) : Reader where
  mode := .text brackets
  level := outerFrames.length + 1
  begun := true
  builder := ⟨layerFrame elements :: outerFrames, [], []⟩
  references := 0

/-- The layer around the elements of a fragment. -/
def layer (elements : List Element) : Element :=
  (layerFrame elements).close

/-- An element with open elements around it, the innermost first, once all of them are closed. -/
def enclose (frames : List Frame) (element : Element) : Element :=
  frames.foldl (fun element frame =>
    { frame with children := element :: frame.children : Frame }.close) element

/-- The elements that a fragment consists of, if it is read as the content of the layer. -/
def ReadsAs (fragment : List Char) (elements : List Element) : Prop :=
  ∃ brackets, (inLayer 0 []).run plainReading fragment = .ok (inLayer brackets elements)

set_option maxRecDepth 10000 in
/-- The fixed document up to the place of the fragment leads into the layer. -/
theorem run_wrapperHead : Reader.start.run plainReading wrapperHead = .ok (inLayer 0 []) := by
  unfold wrapperHead meiUri queryUri
  rw [String.toList_ofList, String.toList_ofList, String.toList_ofList, String.toList_ofList,
    String.toList_ofList]
  rfl

/-- End tags on lines of their own, indented by their depth. -/
def endTags : List (List Char) → List Char
  | [] => ['\n']
  | name :: names =>
    '\n' :: (List.replicate (4 * names.length) ' ' ++ '<' :: '/' :: (name ++ '>' :: endTags names))

set_option maxRecDepth 10000 in
theorem wrapperTail_eq : wrapperTail = endTags containerPath.reverse := by
  unfold wrapperTail
  rw [String.toList_ofList]
  rfl

set_option maxRecDepth 10000 in
/-- The fixed document after the place of the fragment closes the layer and all around it. -/
theorem run_wrapperTail (brackets : Nat) (elements : List Element) :
    (inLayer brackets elements).run plainReading wrapperTail =
      .ok ⟨.text 0, 0, true, ⟨[], [enclose outerFrames (layer elements)], []⟩, 0⟩ := by
  unfold wrapperTail
  rw [String.toList_ofList]
  rfl

theorem containers_enclose (elements : List Element) :
    containers (enclose outerFrames (layer elements)) = [layer elements] := by
  simp [containers, containerPath, follow, childrenNamed, enclose, outerFrames, layer, layerFrame,
    wrapperElement, wrapperFrame, Frame.close, localName, Element.name, Element.children]

theorem isRegular_inLayer (brackets : Nat) (elements : List Element) :
    (inLayer brackets elements).IsRegular where
  begun := rfl
  references := rfl
  level := rfl
  builder := ⟨rfl, fun _ => rfl, Nat.zero_le 1⟩
  pending _ := rfl
  quoted := rfl

/-- The layer is where the path leads to. -/
theorem remaining_containerPath : remaining containerPath.reverse = some [] := by
  decide

theorem remaining_inLayer (brackets : Nat) (elements : List Element) :
    remaining (openNames (inLayer brackets elements).builder) = some [] :=
  remaining_containerPath

theorem completed_inLayer (brackets : Nat) (elements : List Element) :
    completed (inLayer brackets elements).builder = 0 := by
  have houter : completedIn outerFrames = 0 := by decide
  have hremaining := remaining_inLayer brackets elements
  simp only [openNames, inLayer] at hremaining
  simp only [completed, inLayer, completedIn, hremaining, houter, countAmong_nil, countAmong_end]

section Tail

theorem layer_mem_containerPath : "layer".toList ∈ containerPath := by
  simp [containerPath]

/-- The names of the path are written without qualifiers. -/
theorem ofText_of_mem_containerPath {name : List Char} (h : name ∈ containerPath) :
    QName.ofText name = .ok ⟨[], name⟩ := by
  have hnames : containerPath.all (fun name => (QName.ofText name).toOption == some ⟨[], name⟩) =
      true := by
    decide
  have hname := beq_iff_eq.mp (List.all_eq_true.mp hnames name h)
  cases hwritten : QName.ofText name with
  | error e =>
    rw [hwritten] at hname
    cases hname
  | ok written =>
    rw [hwritten] at hname
    cases hname
    rfl

theorem isNameChar_of_mem_containerPath {name : List Char} (h : name ∈ containerPath) :
    ∀ c ∈ name, Xml.isNameChar c = true := by
  have hnames : containerPath.all (·.all Xml.isNameChar) = true := by decide
  exact List.all_eq_true.mp (List.all_eq_true.mp hnames name h)

variable {reader last : Reader} {names : List (List Char)}

theorem isBlank_of_mem_indent {depth : Nat} :
    ∀ c ∈ '\n' :: List.replicate depth ' ', Xml.isBlank c = true := by
  intro c hc
  rcases List.mem_cons.mp hc with rfl | hc
  · rfl
  · rw [List.eq_of_mem_replicate hc]
    rfl

/-- What has been begun before end tags is not ended by one of their characters. -/
theorem isClosing_of_mem_endTags (hnames : ∀ name ∈ names, name ∈ containerPath) :
    ∀ c ∈ endTags names, Xml.isClosing c = false := by
  have hpath : containerPath.all (·.all (!Xml.isClosing ·)) = true := by decide
  induction names with
  | nil => simp [endTags, Xml.isClosing]
  | cons name names ih =>
    obtain ⟨hname, hnames⟩ := List.forall_mem_cons.mp hnames
    have hplain := List.all_eq_true.mp (List.all_eq_true.mp hpath name hname)
    intro c hc
    simp only [endTags, List.mem_cons, List.mem_append, List.mem_replicate] at hc
    rcases hc with rfl | ⟨-, rfl⟩ | rfl | rfl | hc | rfl | hc
    any_goals rfl
    · simpa using hplain c hc
    · exact ih hnames c hc

theorem exists_of_run_endTags_cons {brackets : Nat} {name : List Char}
    (hmode : reader.mode = .text brackets) (hname : name ∈ containerPath)
    (h : reader.run plainReading (endTags (name :: names)) = .ok last) :
    ∃ closed : Reader, reader.builder.closeTag ⟨[], name⟩ = .ok closed.builder ∧
      closed.mode = .text 0 ∧ closed.begun = reader.begun ∧
      closed.run plainReading (endTags names) = .ok last :=
  Reader.exists_of_run_endTag hmode isBlank_of_mem_indent (isNameChar_of_mem_containerPath hname)
    (ofText_of_mem_containerPath hname) (List.forall_mem_nil _) h

/-- End tags close the elements that they name. -/
theorem map_written_of_run_endTags {brackets : Nat} (hmode : reader.mode = .text brackets)
    (hnames : ∀ name ∈ names, name ∈ containerPath)
    (h : reader.run plainReading (endTags names) = .ok last) :
    reader.builder.frames.map Frame.written =
      names.map (⟨[], ·⟩) ++ last.builder.frames.map Frame.written := by
  induction names generalizing reader brackets with
  | nil =>
    obtain ⟨other, hother⟩ :=
      @Reader.exists_of_run_blanks reader brackets ['\n'] hmode (by simp [Xml.isBlank])
    cases (hother []).symm.trans h
    rfl
  | cons name names ih =>
    obtain ⟨closed, hclosed, hmode, -, hrun⟩ :=
      exists_of_run_endTags_cons hmode (hnames name (by simp)) h
    have hrest := ih hmode (fun other hother => hnames other (by simp [hother])) hrun
    obtain ⟨frame, frames, hframes, hwritten, hbuilder⟩ := Builder.exists_of_closeTag_eq_ok hclosed
    rw [hbuilder, Builder.map_frames_add fun _ _ => rfl] at hrest
    simp [hframes, hwritten, ← hrest]

end Tail

/-- The same elements inside of a layer, but with some more elements before the first ones in it and
with other open elements around it. -/
structure Beside (before : List Element) (outer other : List Frame) (first second : Builder) :
    Prop where
  frames : ∃ inner elements, first.frames = inner ++ layerFrame elements :: outer ∧
    second.frames = inner ++ layerFrame (before ++ elements) :: other
  roots : first.roots = [] ∧ second.roots = []
  pending : second.pending = first.pending

section Beside

variable {before : List Element} {outer other : List Frame}

theorem layerFrame_append (elements : List Element) (element : Element) :
    layerFrame (elements ++ [element]) =
      { layerFrame elements with children := element :: (layerFrame elements).children } := by
  simp [layerFrame, wrapperFrame]

theorem layerFrame_injective : Function.Injective layerFrame := fun _ _ h =>
  List.reverse_inj.mp (congrArg Frame.children h)

theorem Beside.scope {first second : Builder} (h : Beside before outer other first second) :
    second.scope = first.scope := by
  obtain ⟨inner, elements, hfirst, hsecond⟩ := h.frames
  cases inner <;> simp [Builder.scope, hfirst, hsecond, layerFrame, wrapperFrame]

theorem beside_add {inner : List Frame} {elements : List Element} (element : Element) :
    Beside before outer other
      (Builder.add ⟨inner ++ layerFrame elements :: outer, [], []⟩ element)
      (Builder.add ⟨inner ++ layerFrame (before ++ elements) :: other, [], []⟩ element) := by
  cases inner with
  | nil =>
    refine ⟨⟨[], elements ++ [element], ?_, ?_⟩, ⟨rfl, rfl⟩, rfl⟩
    · rw [layerFrame_append]
      rfl
    · rw [← List.append_assoc, layerFrame_append]
      rfl
  | cons frame inner =>
    exact ⟨⟨{ frame with children := element :: frame.children } :: inner, elements, rfl, rfl⟩,
      ⟨rfl, rfl⟩, rfl⟩

/-- As long as the layer is not closed, nothing that is read depends on what is in it already, or on
what is around it. -/
theorem simulation_beside (before : List Element) {outer other : List Frame} {P : Builder → Prop}
    (hlayer : ∀ {builder next : Builder} {elements : List Element} {tag : QName},
      builder.frames = layerFrame elements :: outer → builder.closeTag tag = .ok next → ¬ P next) :
    Builder.Simulation P (Beside before outer other) where
  addAttribute h := ⟨h.frames, h.roots, by simp [Builder.addAttribute, h.pending]⟩
  openTag := by
    intro first second tag next hbeside h
    obtain ⟨frame, rfl, hopened⟩ := Builder.exists_openTag_congr hbeside.pending hbeside.scope h
    obtain ⟨inner, elements, hfirst, hsecond⟩ := hbeside.frames
    exact ⟨_, hopened, ⟨frame :: inner, elements, by simp [hfirst], by simp [hsecond]⟩,
      hbeside.roots, rfl⟩
  closeTag := by
    intro first second tag next hbeside h hnext
    obtain ⟨inner, elements, hfirst, hsecond⟩ := hbeside.frames
    cases inner with
    | nil => exact absurd hnext (hlayer hfirst h)
    | cons frame inner =>
      have hclosed := Builder.closeTag_congr hbeside.pending hbeside.scope hfirst hsecond h
      obtain ⟨_, frames, hsame, -, rfl⟩ := Builder.exists_of_closeTag_eq_ok h
      obtain ⟨rfl, rfl⟩ := List.cons.inj (hfirst.symm.trans hsame)
      refine ⟨_, hclosed, ?_⟩
      rw [hbeside.roots.1, hbeside.roots.2]
      exact beside_add frame.close

/-- With no more elements open than around the layer, the layer is the innermost one. -/
theorem Beside.eq_of_length {first second : Builder} (h : Beside before outer other first second)
    (hlength : first.frames.length = outer.length + 1) (hpending : first.pending = []) :
    ∃ elements, first = ⟨layerFrame elements :: outer, [], []⟩ ∧
      second = ⟨layerFrame (before ++ elements) :: other, [], []⟩ := by
  obtain ⟨⟨inner, elements, hfirst, hsecond⟩, ⟨hroots, hroots'⟩, hsame⟩ := h
  have hinner : inner = [] := by
    rw [hfirst, List.length_append, List.length_cons] at hlength
    exact List.length_eq_zero_iff.mp (by omega)
  subst hinner
  obtain ⟨frames, roots, pending⟩ := first
  obtain ⟨frames', roots', pending'⟩ := second
  exact ⟨elements, by simp_all, by simp_all⟩

/-- The layer goes on with the same elements. -/
theorem Beside.eq_of_layer {elements : List Element} {second : Builder}
    (h : Beside before outer other ⟨layerFrame elements :: outer, [], []⟩ second) :
    second = ⟨layerFrame (before ++ elements) :: other, [], []⟩ := by
  obtain ⟨same, hsame, rfl⟩ := h.eq_of_length rfl rfl
  rw [layerFrame_injective (List.cons.inj (congrArg Builder.frames hsame)).1]

end Beside

variable {fragment : List Char} {elements : List Element} {root : Element}

/-- The end tag of the layer completes a container. -/
theorem completed_ne_zero_of_closeTag {builder next : Builder} {tag : QName}
    (hframes : builder.frames = layerFrame elements :: outerFrames)
    (h : builder.closeTag tag = .ok next) : completed next ≠ 0 := by
  have hnames : openNames builder = openNames (inLayer 0 elements).builder := by
    rw [openNames, hframes]
    rfl
  rw [completed_closeTag h, hnames, remaining_inLayer]
  exact Nat.succ_ne_zero _

/-- What does not end the layer can be read after other elements in it, and with other elements
around it. -/
theorem exists_run_beside (before : List Element) (other : List Frame) {last : Reader}
    (h : (inLayer 0 []).run plainReading fragment = .ok last)
    (hnone : completed last.builder = 0) :
    ∃ builder, ((inLayer 0 []).withBuilder ⟨layerFrame before :: other, [], []⟩).run plainReading
        fragment = .ok (last.withBuilder builder) ∧
      Beside before outerFrames other last.builder builder := by
  have hstart : Beside before outerFrames other (inLayer 0 []).builder
      ⟨layerFrame before :: other, [], []⟩ :=
    ⟨⟨[], [], rfl, by rw [List.append_nil]; rfl⟩, ⟨rfl, rfl⟩, rfl⟩
  exact Reader.exists_run_of_simulation (simulation_beside before completed_ne_zero_of_closeTag)
    (completed_eq_zero_of_run hnone) rfl hstart h

/-- The content of the layer is read in the same way after other elements. -/
theorem ReadsAs.exists_run (h : ReadsAs fragment elements) (before : List Element) :
    ∃ brackets, (inLayer 0 before).run plainReading fragment =
      .ok (inLayer brackets (before ++ elements)) := by
  obtain ⟨brackets, h⟩ := h
  obtain ⟨builder, hrun, hbeside⟩ :=
    exists_run_beside before outerFrames h (completed_inLayer brackets elements)
  obtain rfl := hbeside.eq_of_layer
  exact ⟨brackets, hrun⟩

/-- A document is read from some place in it on, given a reader that has come to this place. -/
theorem parse_around {head rest : List Char} {reader : Reader} {c : Char} (tail : List Char)
    (hhead : head = '<' :: c :: rest) (hbang : c ≠ '!') (hquestion : c ≠ '?')
    (h : Reader.start.run plainReading head = .ok reader) :
    Xml.parse (head ++ fragment ++ tail) =
      (reader.run plainReading fragment >>= (Reader.run plainReading · tail)) >>=
        fun last => if last.mayEndDocument then last.builder.root else .error .unexpectedEnd := by
  have hroot : Xml.parse (head ++ fragment ++ tail) =
      Xml.parseRoot [] (head ++ fragment ++ tail) := by
    rw [hhead]
    exact Xml.parse_of_startTag hbang hquestion
  rw [hroot, Xml.parseRoot, List.append_assoc, Reader.run_append, h]
  change (reader.run plainReading (fragment ++ tail) >>= _) = _
  rw [Reader.run_append]
  rfl

/-- The fixed document with a fragment in it is read from the layer on. -/
theorem parse_wrap (fragment : List Char) : Xml.parse (wrap fragment) =
    ((inLayer 0 []).run plainReading fragment >>= (Reader.run plainReading · wrapperTail)) >>=
      fun last => if last.mayEndDocument then last.builder.root else .error .unexpectedEnd := by
  have hhead : wrapperHead = '<' :: 'm' :: wrapperHead.drop 2 := by
    unfold wrapperHead
    rw [String.toList_ofList]
    rfl
  rw [wrap, parse_around wrapperTail hhead (by decide) (by decide) run_wrapperHead]

section Tail

variable {middle last : Reader} {brackets : Nat}

/-- End tags are read to the end of a document only from character data. -/
theorem exists_mode_of_run_endTags {name : List Char} {names : List (List Char)}
    (hregular : middle.IsRegular) (hnames : ∀ other ∈ name :: names, other ∈ containerPath)
    (h : middle.run plainReading (endTags (name :: names)) = .ok last)
    (hend : last.mayEndDocument = true) : ∃ brackets, middle.mode = .text brackets := by
  by_cases hmode : ∃ brackets, middle.mode = .text brackets
  · exact hmode
  · have hwaiting := Reader.isWaiting_of_run_lines hregular (not_exists.mp hmode)
      (fun c hc => isBlank_of_mem_indent c (List.mem_cons_of_mem _ hc))
      (fun c hc => isClosing_of_mem_endTags hnames c (List.mem_cons_of_mem _ hc)) h
    unfold Reader.mayEndDocument at hend
    split at hend
    · next brackets heq =>
      rw [heq] at hwaiting
      cases hwaiting
    · cases hend

theorem exists_mode_of_run_wrapperTail (hregular : middle.IsRegular)
    (h : middle.run plainReading wrapperTail = .ok last) (hend : last.mayEndDocument = true) :
    ∃ brackets, middle.mode = .text brackets := by
  rw [wrapperTail_eq] at h
  exact exists_mode_of_run_endTags hregular (fun name hname => List.mem_reverse.mp hname) h hend

theorem frames_eq_nil_of_root {builder : Builder} (h : builder.root = .ok root) :
    builder.frames = [] ∧ builder.roots.getLast? = some root := by
  unfold Builder.root at h
  split at h
  · next hempty =>
    split at h
    · next hroots =>
      cases h
      exact ⟨List.isEmpty_iff.mp hempty, hroots⟩
    · cases h
  · cases h

variable (hregular : middle.IsRegular) (hmode : middle.mode = .text brackets)
  (h : middle.run plainReading wrapperTail = .ok last) (hroot : last.builder.root = .ok root)
include hregular hmode h hroot

/-- The end of the fixed document closes elements with the names of the path. -/
theorem openNames_of_run_wrapperTail : openNames middle.builder = containerPath.reverse := by
  rw [wrapperTail_eq] at h
  have hwritten :=
    map_written_of_run_endTags hmode (fun name hname => List.mem_reverse.mp hname) h
  rw [(frames_eq_nil_of_root hroot).1, List.map_nil, List.append_nil] at hwritten
  have hlocal := congrArg (List.map QName.localPart) hwritten
  rw [openNames, hregular.builder.named]
  simpa [Function.comp_def] using hlocal

/-- The end of the fixed document completes one more container. -/
theorem completed_lt_of_run_wrapperTail :
    completed middle.builder < (containers root).length := by
  have hnames := openNames_of_run_wrapperTail hregular hmode h hroot
  have hlast := hregular.of_run h
  rw [wrapperTail_eq] at h
  obtain ⟨closed, hclosed, -, hbegun, hrun⟩ :=
    exists_of_run_endTags_cons hmode layer_mem_containerPath h
  have hself : countSelf (remaining containerPath.reverse) = 1 := by
    rw [remaining_containerPath]
    rfl
  have hle := completed_le_of_run (hbegun.trans hregular.begun) hrun
  rw [completed_closeTag hclosed, hnames, hself] at hle
  obtain ⟨hframes, hroots⟩ := frames_eq_nil_of_root hroot
  obtain ⟨others, hothers⟩ := List.getLast?_eq_some_iff.mp hroots
  have hone := hlast.builder.oneRoot
  rw [hothers, List.length_append, List.length_singleton] at hone
  obtain rfl : others = [] := List.length_eq_zero_iff.mp (by omega)
  rw [length_containers]
  refine Nat.lt_of_lt_of_le (Nat.lt_succ_self _) (Nat.le_trans hle ?_)
  simp [completed, hframes, hothers]

end Tail

/-- A document with a fragment in it has one container only if the fragment is the content of the
layer. -/
theorem exists_readsAs (h : Xml.parse (wrap fragment) = .ok root)
    (hroot : (containers root).length = 1) :
    ∃ elements, ReadsAs fragment elements := by
  rw [parse_wrap] at h
  obtain ⟨last, hlast, h⟩ := Except.exists_of_bind_eq_ok h
  obtain ⟨middle, hmiddle, hlast⟩ := Except.exists_of_bind_eq_ok hlast
  have hregular := (isRegular_inLayer 0 []).of_run hmiddle
  split at h
  case isFalse => cases h
  case isTrue hend =>
    obtain ⟨brackets, hmode⟩ := exists_mode_of_run_wrapperTail hregular hlast hend
    have hnone : completed middle.builder = 0 := by
      have hlt := completed_lt_of_run_wrapperTail hregular hmode hlast h
      omega
    have hlength : middle.builder.frames.length = outerFrames.length + 1 := by
      have hnames := congrArg List.length (openNames_of_run_wrapperTail hregular hmode hlast h)
      rw [openNames, List.length_map] at hnames
      exact hnames
    obtain ⟨other, -, hbeside⟩ := exists_run_beside [] outerFrames hmiddle hnone
    obtain ⟨elements, hbuilder, -⟩ :=
      hbeside.eq_of_length hlength (hregular.pending (by rw [hmode]; rfl))
    have hlayer : middle = inLayer brackets elements :=
      hregular.ext (isRegular_inLayer brackets elements) hmode hbuilder
    exact ⟨elements, brackets, hlayer ▸ hmiddle⟩

theorem parse_eq_ok_iff {document : List Char} :
    parse document = .ok root ↔ Xml.parse document = .ok root := by
  unfold parse
  cases Xml.parse document with
  | error e =>
    constructor <;> intro h <;> cases h
  | ok read =>
    change Except.ok read = .ok root ↔ _
    simp

/-- A document with the content of a layer in it is read. -/
theorem parse_of_readsAs (h : ReadsAs fragment elements) :
    Xml.parse (wrap fragment) = .ok (enclose outerFrames (layer elements)) := by
  obtain ⟨brackets, h⟩ := h
  rw [parse_wrap, Except.bind_of_eq_ok h, Except.bind_of_eq_ok (run_wrapperTail brackets elements)]
  rfl

end MotifSearch.Markup

namespace MotifSearch.Pattern

open Markup (isDocument ReadsAs layer)

variable {fragment : List Char} {elements : List Xml.Element} {pattern : Pattern}

/-- A fragment that is read as the content of the layer is taken for the pattern in it. -/
theorem ofMarkup_of_readsAs (hfragment : isDocument fragment = false)
    (h : ReadsAs fragment elements) : ofMarkup fragment = ofContainer (layer elements) := by
  have hroot := Markup.parse_eq_ok_iff.mpr (Markup.parse_of_readsAs h)
  rw [ofMarkup, Markup.toDocument_of_not_isDocument hfragment, ofDocument,
    Except.bind_of_eq_ok hroot, Except.bind_of_eq_ok
      (Markup.container_eq_ok_iff.mpr (Markup.containers_enclose elements))]

/-- A fragment that has a pattern is read as the content of the layer. -/
theorem exists_readsAs_of_ofMarkup (hfragment : isDocument fragment = false)
    (h : ofMarkup fragment = .ok pattern) :
    ∃ elements, ReadsAs fragment elements ∧ ofContainer (layer elements) = .ok pattern := by
  have hpattern := h
  rw [ofMarkup, Markup.toDocument_of_not_isDocument hfragment] at h
  obtain ⟨root, hroot, h⟩ := Except.exists_of_bind_eq_ok h
  obtain ⟨container, hcontainer, -⟩ := Except.exists_of_bind_eq_ok h
  obtain ⟨elements, helements⟩ := Markup.exists_readsAs (Markup.parse_eq_ok_iff.mp hroot)
    (by rw [Markup.container_eq_ok_iff.mp hcontainer]; rfl)
  exact ⟨elements, helements, ofMarkup_of_readsAs hfragment helements ▸ hpattern⟩

end MotifSearch.Pattern
