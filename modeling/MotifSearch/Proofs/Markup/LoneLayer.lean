import MotifSearch.Proofs.Markup.Fragment
import MotifSearch.Proofs.Markup.Places
import MotifSearch.Proofs.Xml.Depth

/-!
# A layer by itself

What a fragment consists of can be told without the fixed document: a layer around the fragment
makes a document, too, and the layer in the fixed document is the root element of this one. In
particular a fragment that closes the layer and opens another one has no container, since the other
one would be a second root element.

## Main definitions

* `loneLayer` — a document with one layer around a fragment
* `layerEnd` — an end tag of the layer

## Main results

* `readsAs_of_lone`, `lone_of_readsAs` — a fragment is read in the same way in both documents
* `container_parse_wrap_iff` — the container is the root element of the other document
* `one_lt_length_containers` — what comes of closing the layer early
* `container_is_exact` — the container of a document, and of a document with a fragment in it
-/

namespace MotifSearch.Markup

open Xml (Element Frame Builder QName Reader plainReading)

/-- The start tag of a layer with all that the fixed document says about it. -/
def layerStart : List Char :=
  "<layer xmlns=\"".toList ++ meiUri ++ "\" xmlns:query=\"".toList ++ queryUri ++
    "\" n=\"1\">".toList

/-- A document with one layer around a fragment. -/
def loneLayer (fragment : List Char) : List Char :=
  layerStart ++ fragment ++ endTags ["layer".toList]

/-- A reader in the layer of such a document. -/
def inLone (brackets : Nat) (elements : List Element) : Reader where
  mode := .text brackets
  level := 1
  begun := true
  builder := ⟨[layerFrame elements], [], []⟩
  references := 0

variable {fragment : List Char} {elements : List Element} {brackets : Nat} {root : Element}

set_option maxRecDepth 10000 in
/-- The start tag leads into the layer. -/
theorem run_layerStart : Reader.start.run plainReading layerStart = .ok (inLone 0 []) := by
  unfold layerStart meiUri queryUri
  rw [String.toList_ofList, String.toList_ofList, String.toList_ofList, String.toList_ofList,
    String.toList_ofList]
  rfl

/-- The end tag closes the layer. -/
theorem run_endTags_layer (brackets : Nat) (elements : List Element) :
    (inLone brackets elements).run plainReading (endTags ["layer".toList]) =
      .ok ⟨.text 0, 0, true, ⟨[], [layer elements], []⟩, 0⟩ := by
  rfl

theorem isRegular_inLone (brackets : Nat) (elements : List Element) :
    (inLone brackets elements).IsRegular where
  begun := rfl
  references := rfl
  level := rfl
  builder := ⟨rfl, fun _ => rfl, Nat.zero_le 1⟩
  pending _ := rfl
  quoted := rfl

/-- The document is read from the layer on. -/
theorem parse_loneLayer (fragment : List Char) : Xml.parse (loneLayer fragment) =
    ((inLone 0 []).run plainReading fragment >>=
      (Reader.run plainReading · (endTags ["layer".toList]))) >>=
      fun last => if last.mayEndDocument then last.builder.root else .error .unexpectedEnd := by
  have hhead : layerStart = '<' :: 'l' :: layerStart.drop 2 := by
    unfold layerStart
    rw [String.toList_ofList]
    rfl
  rw [loneLayer, parse_around _ hhead (by decide) (by decide) run_layerStart]

/-- No action takes a complete root element away. -/
theorem length_roots_le_of_action {action : Builder.Action} {builder next : Builder}
    (h : action.run builder = .ok next) : builder.roots.length ≤ next.roots.length := by
  have hopen : ∀ {builder next : Builder} {tag}, builder.openTag tag = .ok next →
      builder.roots.length ≤ next.roots.length := by
    intro builder next tag hopened
    obtain ⟨frame, -, -, -, rfl⟩ := Builder.exists_of_openTag_eq_ok hopened
    exact Nat.le_refl _
  have hclose : ∀ {builder next : Builder} {tag}, builder.closeTag tag = .ok next →
      builder.roots.length ≤ next.roots.length := by
    intro builder next tag hclosed
    obtain ⟨frame, frames, -, -, rfl⟩ := Builder.exists_of_closeTag_eq_ok hclosed
    cases frames with
    | nil => exact Nat.le_succ _
    | cons frame frames => exact Nat.le_refl _
  cases action with
  | keep | addAttribute =>
    cases h
    exact Nat.le_refl _
  | openTag tag => exact hopen h
  | closeTag tag => exact hclose h
  | emptyTag tag =>
    obtain ⟨opened, hopened, hclosed⟩ := Except.exists_of_bind_eq_ok h
    exact Nat.le_trans (hopen hopened) (hclose hclosed)

/-- The end tag of a layer with nothing around it leaves a complete root element. -/
theorem roots_ne_nil_of_closeTag {builder next : Builder} {tag : QName}
    (hframes : builder.frames = layerFrame elements :: []) (h : builder.closeTag tag = .ok next) :
    next.roots ≠ [] := by
  obtain ⟨frame, frames, hsame, -, rfl⟩ := Builder.exists_of_closeTag_eq_ok h
  obtain ⟨-, rfl⟩ := List.cons.inj (hframes.symm.trans hsame)
  exact List.cons_ne_nil _ _

/-- What does not end the layer can be read in the fixed document. -/
theorem exists_run_of_lone {last : Reader}
    (h : (inLone 0 []).run plainReading fragment = .ok last) (hlast : last.builder.roots = []) :
    ∃ builder, ((inLone 0 []).withBuilder (inLayer 0 []).builder).run plainReading fragment =
        .ok (last.withBuilder builder) ∧
      Beside [] [] outerFrames last.builder builder := by
  have hnone : ∀ {between : Reader} {rest}, between.begun = true →
      between.run plainReading rest = .ok last → between.builder.roots = [] := by
    intro between rest hbegun hrun
    have hle := Reader.le_of_run length_roots_le_of_action hbegun hrun
    rw [hlast] at hle
    exact List.length_eq_zero_iff.mp (Nat.le_zero.mp hle)
  have hstart : Beside [] [] outerFrames (inLone 0 []).builder (inLayer 0 []).builder :=
    ⟨⟨[], [], rfl, rfl⟩, ⟨rfl, rfl⟩, rfl⟩
  exact Reader.exists_run_of_simulation (P := fun builder => builder.roots = [])
    (simulation_beside [] roots_ne_nil_of_closeTag) hnone rfl hstart h

/-- What is read as the content of a layer by itself is read as the content of the one in the fixed
document. -/
theorem readsAs_of_lone
    (h : (inLone 0 []).run plainReading fragment = .ok (inLone brackets elements)) :
    ReadsAs fragment elements := by
  obtain ⟨builder, hrun, hbeside⟩ := exists_run_of_lone h rfl
  obtain rfl := hbeside.eq_of_layer
  exact ⟨brackets, Reader.run_deepen outerFrames.length rfl hrun (Nat.succ_ne_zero 0)⟩

/-- Wherever a reader is that has not completed a container, it is still inside of the layer. -/
theorem lt_level_of_run {last : Reader} (h : (inLayer 0 []).run plainReading fragment = .ok last)
    (hnone : completed last.builder = 0) : outerFrames.length < last.level := by
  obtain ⟨builder, -, hbeside⟩ := exists_run_beside [] outerFrames h hnone
  obtain ⟨inner, elements, hframes, -⟩ := hbeside.frames
  rw [((isRegular_inLayer 0 []).of_run h).level, hframes, List.length_append, List.length_cons]
  omega

/-- What is read as the content of the layer in the fixed document is read as the content of a layer
by itself. -/
theorem lone_of_readsAs (h : ReadsAs fragment elements) :
    ∃ brackets, (inLone 0 []).run plainReading fragment = .ok (inLone brackets elements) := by
  obtain ⟨brackets, h⟩ := h
  -- In between stands a reader that is as deep as in the fixed document but has no frames around.
  have hdeep : ∀ {text last}, (inLayer 0 []).run plainReading text = .ok last →
      completed last.builder = 0 → ∃ builder,
        ((inLone 0 []).deepen outerFrames.length).run plainReading text =
          .ok (last.withBuilder builder) ∧
        Beside [] outerFrames [] last.builder builder :=
    fun hrun hnone => exists_run_beside [] [] hrun hnone
  -- Before each part of the text that is left, no container has been completed.
  have hinside : ∀ first second between, fragment = first ++ second →
      ((inLone 0 []).deepen outerFrames.length).run plainReading first = .ok between →
        outerFrames.length < between.level := by
    intro first second between hsplit hfirst
    rw [hsplit, Reader.run_append] at h
    obtain ⟨middle, hmiddle, hrest⟩ := Except.exists_of_bind_eq_ok h
    have hnone := completed_eq_zero_of_run (completed_inLayer brackets elements)
      ((isRegular_inLayer 0 []).of_run hmiddle).begun hrest
    obtain ⟨_, hsame, -⟩ := hdeep hmiddle hnone
    obtain rfl := Except.ok.inj (hsame.symm.trans hfirst)
    have hlt := lt_level_of_run hmiddle hnone
    exact hlt
  obtain ⟨builder, hrun, hbeside⟩ := hdeep h (completed_inLayer brackets elements)
  obtain rfl := hbeside.eq_of_layer
  obtain ⟨other, hother, hlast⟩ := Reader.exists_of_run_deepen hrun hinside
  obtain rfl : inLone brackets elements = other :=
    Reader.deepen_injective outerFrames.length hlast
  exact ⟨brackets, hother⟩

/-- The content of the layer makes a document with one layer around it. -/
theorem parse_loneLayer_of_readsAs (h : ReadsAs fragment elements) :
    Xml.parse (loneLayer fragment) = .ok (layer elements) := by
  obtain ⟨brackets, hlone⟩ := lone_of_readsAs h
  rw [parse_loneLayer, Except.bind_of_eq_ok hlone,
    Except.bind_of_eq_ok (run_endTags_layer brackets elements)]
  rfl

/-- Only the content of the layer does. -/
theorem exists_readsAs_of_parse_loneLayer (h : Xml.parse (loneLayer fragment) = .ok root) :
    ∃ elements, ReadsAs fragment elements ∧ root = layer elements := by
  have hparse := h
  rw [parse_loneLayer] at h
  obtain ⟨last, hlast, h⟩ := Except.exists_of_bind_eq_ok h
  obtain ⟨middle, hmiddle, hlast⟩ := Except.exists_of_bind_eq_ok hlast
  have hregular := (isRegular_inLone 0 []).of_run hmiddle
  split at h
  case isFalse => cases h
  case isTrue hend =>
    have hpath : ∀ name ∈ ["layer".toList], name ∈ containerPath :=
      List.forall_mem_singleton.mpr layer_mem_containerPath
    obtain ⟨brackets, hmode⟩ := exists_mode_of_run_endTags hregular hpath hlast hend
    -- The end tag closes the only open element.
    have hlength : middle.builder.frames.length = 1 := by
      have hwritten := map_written_of_run_endTags hmode hpath hlast
      rw [(frames_eq_nil_of_root h).1] at hwritten
      simpa using congrArg List.length hwritten
    have hroots := hregular.builder.roots fun hnil => by simp [hnil] at hlength
    obtain ⟨builder, -, hbeside⟩ := exists_run_of_lone hmiddle hroots
    obtain ⟨elements, hbuilder, -⟩ :=
      hbeside.eq_of_length hlength (hregular.pending (by rw [hmode]; rfl))
    have hlone : middle = inLone brackets elements :=
      hregular.ext (isRegular_inLone brackets elements) hmode hbuilder
    have hreads := readsAs_of_lone (hlone ▸ hmiddle)
    exact ⟨elements, hreads, Except.ok.inj (hparse.symm.trans (parse_loneLayer_of_readsAs hreads))⟩

/-- The container of the document of a fragment is the root element of the document with one layer
around the fragment. -/
theorem container_parse_wrap_iff {element : Element} :
    (parse (wrap fragment) >>= container) = .ok element ↔
      Xml.parse (loneLayer fragment) = .ok element := by
  constructor
  · intro h
    obtain ⟨root, hroot, hcontainer⟩ := Except.exists_of_bind_eq_ok h
    have hone := container_eq_ok_iff.mp hcontainer
    rw [parse_eq_ok_iff] at hroot
    obtain ⟨elements, hreads⟩ := exists_readsAs hroot (by rw [hone]; rfl)
    obtain rfl := Except.ok.inj (hroot.symm.trans (parse_of_readsAs hreads))
    rw [containers_enclose] at hone
    rw [parse_loneLayer_of_readsAs hreads, (List.cons.inj hone).1]
  · intro h
    obtain ⟨elements, hreads, rfl⟩ := exists_readsAs_of_parse_loneLayer h
    rw [Except.bind_of_eq_ok (parse_eq_ok_iff.mpr (parse_of_readsAs hreads))]
    exact container_eq_ok_iff.mpr (containers_enclose elements)

/-- An end tag of the layer. -/
def layerEnd (blanks : List Char) : List Char :=
  '<' :: '/' :: ("layer".toList ++ (blanks ++ ['>']))

/-- A fragment that closes the layer leaves it to the fixed document to close another one. -/
theorem one_lt_length_containers {before blanks after : List Char}
    (hbefore : ReadsAs before elements) (hblanks : ∀ c ∈ blanks, Xml.isBlank c = true)
    (h : Xml.parse (wrap (before ++ layerEnd blanks ++ after)) = .ok root) :
    1 < (containers root).length := by
  rw [parse_wrap, List.append_assoc, Reader.run_append] at h
  obtain ⟨last, hlast, h⟩ := Except.exists_of_bind_eq_ok h
  obtain ⟨middle, hmiddle, hlast⟩ := Except.exists_of_bind_eq_ok hlast
  obtain ⟨brackets, hbefore⟩ := hbefore
  rw [hbefore] at hmiddle
  have hend : layerEnd blanks ++ after =
      [] ++ '<' :: '/' :: ("layer".toList ++ (blanks ++ '>' :: after)) := by
    simp [layerEnd]
  change (inLayer brackets elements).run plainReading (layerEnd blanks ++ after) = _ at hmiddle
  rw [hend] at hmiddle
  obtain ⟨closed, hclosed, -, hbegun, hafter⟩ := Reader.exists_of_run_endTag rfl
    (List.forall_mem_nil _) (isNameChar_of_mem_containerPath layer_mem_containerPath)
    (ofText_of_mem_containerPath layer_mem_containerPath) hblanks hmiddle
  -- The layer that has been closed is one container, and the fixed document closes another one.
  have hone : 0 < completed closed.builder :=
    Nat.pos_of_ne_zero (completed_ne_zero_of_closeTag rfl hclosed)
  have hle := completed_le_of_run (hbegun.trans rfl) hafter
  split at h
  case isFalse => cases h
  case isTrue hend =>
    have hregular := (isRegular_inLayer brackets elements).of_run hmiddle
    obtain ⟨brackets, hmode⟩ := exists_mode_of_run_wrapperTail hregular hlast hend
    have hlt := completed_lt_of_run_wrapperTail hregular hmode hlast h
    omega

/-- Without exactly one container, their number is reported. -/
theorem container_eq_error_iff {cause : PatternError} : container root = .error cause ↔
    (containers root).length ≠ 1 ∧ cause = .containerCount (containers root).length := by
  unfold container
  split
  · next heq => simp [heq]
  · next hne =>
    have hlength : (containers root).length ≠ 1 := fun hone => by
      obtain ⟨element, helement⟩ := List.length_eq_one_iff.mp hone
      exact hne element helement
    constructor
    · intro h
      cases h
      exact ⟨hlength, rfl⟩
    · rintro ⟨-, rfl⟩
      rfl

/-- What is wrong with a fragment that closes the layer. -/
theorem exists_error_of_layerEnd {before blanks : List Char} (after : List Char)
    (hbefore : ReadsAs before elements) (hblanks : ∀ c ∈ blanks, Xml.isBlank c = true) :
    ∃ cause, (parse (wrap (before ++ layerEnd blanks ++ after)) >>= container) = .error cause ∧
      ((∃ e, cause = .invalidXml e) ∨ ∃ count, 1 < count ∧ cause = .containerCount count) := by
  cases hparse : Xml.parse (wrap (before ++ layerEnd blanks ++ after)) with
  | error e =>
    refine ⟨.invalidXml e, ?_, .inl ⟨e, rfl⟩⟩
    rw [parse, hparse]
    rfl
  | ok root =>
    have hlt := one_lt_length_containers hbefore hblanks hparse
    have hcause := container_eq_error_iff.mpr ⟨Nat.ne_of_gt hlt, rfl⟩
    refine ⟨_, ?_, .inr ⟨_, hlt, rfl⟩⟩
    rw [Except.bind_of_eq_ok (parse_eq_ok_iff.mpr hparse)]
    exact hcause

/-- The containers of a document are the elements to which the path leads, each of them once and in
the order of the document. There is a container exactly if there is only one, and otherwise their
number is reported. In the document of a fragment, the container is what a layer around the fragment
is by itself; and a fragment that closes the layer, whatever comes after this, is either no content
of a document at all or leads to more than one container. -/
theorem container_is_exact :
    (∀ root, IsEveryPlace root containerPath (containers root) ∧
      (∀ element, container root = .ok element ↔ containers root = [element]) ∧
      ∀ cause, container root = .error cause ↔
        (containers root).length ≠ 1 ∧ cause = .containerCount (containers root).length) ∧
    (∀ fragment element, (parse (wrap fragment) >>= container) = .ok element ↔
      Xml.parse (loneLayer fragment) = .ok element) ∧
    ∀ before blanks after element, Xml.parse (loneLayer before) = .ok element →
      (∀ c ∈ blanks, Xml.isBlank c = true) →
      ∃ cause, (parse (wrap (before ++ layerEnd blanks ++ after)) >>= container) = .error cause ∧
        ((∃ e, cause = .invalidXml e) ∨ ∃ count, 1 < count ∧ cause = .containerCount count) := by
  refine ⟨fun root => ⟨isEveryPlace_containers root, fun element => container_eq_ok_iff,
    fun cause => container_eq_error_iff⟩, fun fragment element => container_parse_wrap_iff, ?_⟩
  intro before blanks after element hbefore hblanks
  obtain ⟨elements, hreads, -⟩ := exists_readsAs_of_parse_loneLayer hbefore
  exact exists_error_of_layerEnd after hreads hblanks

/-- A fragment with a note, an end tag of the layer, and the start tag of another layer. -/
def reopened : List Char :=
  "<note/>".toList ++ layerEnd [' '] ++ "<layer>".toList

/-- The note would be the content of a layer, and the fragment is refused. -/
theorem container_is_exact_reopened :
    (∃ element, Xml.parse (loneLayer "<note/>".toList) = .ok element) ∧
    ∃ cause, (parse (wrap reopened) >>= container) = .error cause ∧
      ((∃ e, cause = .invalidXml e) ∨ ∃ count, 1 < count ∧ cause = .containerCount count) := by
  have hnote : ReadsAs "<note/>".toList [.mk ⟨some meiUri, "note".toList⟩ [] []] := ⟨0, rfl⟩
  have hlone := parse_loneLayer_of_readsAs hnote
  obtain ⟨-, -, hclosed⟩ := container_is_exact
  exact ⟨⟨_, hlone⟩, hclosed _ [' '] "<layer>".toList _ hlone (by simp [Xml.isBlank])⟩

end MotifSearch.Markup
