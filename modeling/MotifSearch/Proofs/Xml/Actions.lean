import MotifSearch.Proofs.Except
import MotifSearch.Xml.Document

/-!
# What a step of reading does

In a document that declares no entities every character is read in one of a few ways as far as the
elements are concerned: it leaves them alone, gives one more attribute, opens an element or closes
one, or does both at once. Which of these it is does not depend on the elements, so that the same
text read elsewhere does the same to the elements there.

## Main definitions

* `plainReading` — how a document without entities is read
* `Builder.Action` — what reading a character can do to the elements
* `Reader.Transition`, `Reader.Acts` — what a step does to the elements and to the rest of the
  reader
* `Builder.IsRegular`, `Reader.IsRegular` — what holds after the start tag of the root element
* `Builder.Simulation` — a relation of elements that is kept by what is read

## Main results

* `acts_step`, `exists_transition` — each step is one of the actions
* `IsRegular.of_step`, `IsRegular.of_run` — what holds after the first start tag holds later on
* `exists_run_of_simulation` — what can be read can be read elsewhere in the same way
-/

namespace MotifSearch.Xml

/-- How a document that declares no entities is read. -/
abbrev plainReading : Reading := reading [] entityDepthLimit false

private theorem expandWith_count {cause : XmlError} {pending : Option (List Char)}
    {text value : List Char} {count last : Nat}
    (h : expandWith false (fun _ _ => .error cause) pending text count = .ok (value, last)) :
    last = count := by
  fun_induction expandWith generalizing value with
  | case1 count =>
    cases h
    rfl
  | case2 => cases h
  | case3 rest count ih => exact ih h
  | case4 rest count ih | case5 c rest count _ _ ih =>
    obtain ⟨⟨rest, count⟩, hrest, h⟩ := Except.exists_of_bind_eq_ok h
    cases h
    exact ih hrest
  | case6 seen rest count ih _ =>
    obtain ⟨reference, -, h⟩ := Except.exists_of_bind_eq_ok h
    cases reference with
    | char c =>
      obtain ⟨⟨rest, count⟩, hrest, h⟩ := Except.exists_of_bind_eq_ok h
      cases h
      exact ih hrest
    | entity name => cases h
  | case7 seen c rest count _ ih => exact ih h

/-- References to characters are not counted. -/
theorem value_count {text value : List Char} {count last : Nat}
    (h : plainReading.value text count = .ok (value, last)) : last = count :=
  expandWith_count h

namespace Builder

/-- What reading a character can do to the elements. -/
inductive Action where
  | keep
  | addAttribute (name : QName) (value : List Char)
  | openTag (tag : QName)
  | closeTag (tag : QName)
  | emptyTag (tag : QName)

namespace Action

/-- The elements after an action. -/
def run (builder : Builder) : Action → Except XmlError Builder
  | keep => .ok builder
  | addAttribute name value => .ok (builder.addAttribute name value)
  | openTag tag => builder.openTag tag
  | closeTag tag => builder.closeTag tag
  | emptyTag tag => do (← builder.openTag tag).closeTag tag

/-- How many elements are open before and after an action. -/
def Moves (level next : Nat) : Action → Prop
  | keep | addAttribute .. => next = level
  | openTag _ => level ≠ 0 ∧ next = level + 1
  | closeTag _ => level = next + 1
  | emptyTag _ => level ≠ 0 ∧ next = level

end Action

end Builder

open Builder (Action)

namespace Mode

/-- Whether a start tag has been begun. -/
def inStartTag : Mode → Bool
  | inTag .. | attributeName .. | afterName .. | attributeValue .. | closingTag _ => true
  | _ => false

/-- Whether an attribute value that is being read was begun by a quotation mark. -/
def isQuoted : Mode → Bool
  | attributeValue _ _ quote _ => quote == '"' || quote == '\''
  | _ => true

/-- What is known of the mode after an action. -/
def Follows (mode next : Mode) : Action → Prop
  | .keep =>
    (next.inStartTag = false → mode.inStartTag = false) ∧
      (mode.isQuoted = true → next.isQuoted = true)
  | .addAttribute .. => next.inStartTag = true ∧ next.isQuoted = true
  | _ => next = .text 0

variable {mode next : Mode}

theorem follows_of_outside (hmode : mode.inStartTag = false) (hnext : next.isQuoted = true) :
    mode.Follows next .keep :=
  ⟨fun _ => hmode, fun _ => hnext⟩

theorem follows_of_inStartTag (hmode : next.inStartTag = true)
    (hnext : mode.isQuoted = true → next.isQuoted = true) : mode.Follows next .keep :=
  ⟨fun h => Bool.noConfusion (hmode.symm.trans h), hnext⟩

end Mode

namespace Reader

/-- The reader with other elements. -/
def withBuilder (reader : Reader) (builder : Builder) : Reader := { reader with builder }

/-- A step that does the same to all elements, and what it does to the rest of the reader. -/
structure Transition (read : Reader → Except XmlError Reader) (reader next : Reader)
    (action : Action) : Prop where
  result : ∀ builder,
    read (reader.withBuilder builder) = (action.run builder).map next.withBuilder
  references : next.references = reader.references
  begun : next.begun = true
  level : action.Moves reader.level next.level
  mode : reader.mode.Follows next.mode action

/-- Whatever the elements are, a step fails or is one of the actions. -/
def Acts (read : Reader → Except XmlError Reader) (reader : Reader) : Prop :=
  (∀ builder, ∃ e, read (reader.withBuilder builder) = .error e) ∨
    ∃ next action, Transition read reader next action

section Acts

variable {reader : Reader} {level : Nat} {read other : Reader → Except XmlError Reader}

theorem acts_error (e : XmlError) : Acts (fun _ => .error e) reader :=
  .inl fun _ => ⟨e, rfl⟩

theorem Acts.congr
    (h : ∀ builder, read (reader.withBuilder builder) = other (reader.withBuilder builder))
    (hother : Acts other reader) : Acts read reader := by
  rcases hother with hfails | ⟨next, action, htransition⟩
  · exact .inl fun builder => by rw [h]; exact hfails builder
  · exact .inr ⟨next, action,
      { htransition with result := fun builder => by rw [h]; exact htransition.result builder }⟩

theorem Acts.iteOn {p : Reader → Prop} [DecidablePred p]
    (hp : ∀ builder, p (reader.withBuilder builder) ↔ p reader) (hread : Acts read reader)
    (hother : Acts other reader) :
    Acts (fun reader => if p reader then read reader else other reader) reader := by
  by_cases h : p reader
  · exact hread.congr fun builder => if_pos ((hp builder).mpr h)
  · exact hother.congr fun builder => if_neg (mt (hp builder).mp h)

theorem Acts.ite {p : Prop} [Decidable p] (hread : p → Acts read reader)
    (hother : ¬p → Acts other reader) :
    Acts (fun reader => if p then read reader else other reader) reader := by
  by_cases h : p
  · exact (hread h).congr fun _ => if_pos h
  · exact (hother h).congr fun _ => if_neg h

theorem Acts.bind {α : Type} {result : Except XmlError α}
    {read : α → Reader → Except XmlError Reader} (h : ∀ a, Acts (read a) reader) :
    Acts (fun reader => result >>= (read · reader)) reader := by
  cases result with
  | error e => exact acts_error e
  | ok a => exact h a

/-- Inside an element, a start tag depends on the elements only. -/
theorem openElement_eq (reader : Reader) (hlevel : reader.level = level + 1) (tag : QName) :
    reader.openElement plainReading tag = (reader.builder.openTag tag).map fun builder =>
      { reader with mode := .text 0, level := level + 2, begun := true, builder } := by
  simp only [openElement, isInside, hlevel]
  cases reader.builder.openTag tag <;> rfl

/-- Inside an element, an end tag depends on the elements only. -/
theorem closeElement_eq (reader : Reader) (hlevel : reader.level = level + 1) (tag : QName) :
    reader.closeElement plainReading tag = (reader.builder.closeTag tag).map fun builder =>
      { reader with mode := .text 0, level, builder } := by
  simp only [closeElement, hlevel]
  cases reader.builder.closeTag tag <;> rfl

/-- Inside an element, a tag that is start tag and end tag depends on the elements only. -/
theorem emptyElement_eq (reader : Reader) (hlevel : reader.level = level + 1) (tag : QName) :
    (do (← reader.openElement plainReading tag).closeElement plainReading tag) =
      (Action.run reader.builder (.emptyTag tag)).map fun builder =>
        { reader with mode := .text 0, level := level + 1, begun := true, builder } := by
  rw [openElement_eq reader hlevel, Action.run]
  cases reader.builder.openTag tag with
  | error e => rfl
  | ok opened => exact closeElement_eq _ rfl tag

theorem acts_closeElement (hbegun : reader.begun = true) (tag : QName) :
    Acts (closeElement · plainReading tag) reader := by
  cases hlevel : reader.level with
  | zero =>
    refine .inl fun builder => ?_
    simp only [closeElement, withBuilder, hlevel]
    cases builder.closeTag tag with
    | error e => exact ⟨e, rfl⟩
    | ok closed => exact ⟨.mismatchedEndTag, rfl⟩
  | succ level =>
    exact .inr ⟨{ reader with mode := .text 0, level }, .closeTag tag,
      fun builder => closeElement_eq (reader.withBuilder builder) hlevel tag, rfl, hbegun,
      hlevel, rfl⟩

section Begun

variable (hbegun : reader.begun = true) (c : Char)
include hbegun

theorem acts_goOn {mode : Mode} (h : reader.mode.Follows mode .keep) :
    Acts (goOn · mode) reader :=
  .inr ⟨{ reader with mode }, .keep, fun _ => rfl, rfl, hbegun, rfl, h⟩

theorem acts_ok : Acts .ok reader :=
  .inr ⟨reader, .keep, fun _ => rfl, rfl, hbegun, rfl, id, id⟩

/-- After the root element no further element may begin. -/
theorem openElement_eq_error (hlevel : reader.level = 0) (builder : Builder) (tag : QName) :
    (reader.withBuilder builder).openElement plainReading tag = .error .misplacedMarkup := by
  simp only [openElement, isInside, withBuilder, hlevel, hbegun]
  rfl

theorem acts_openElement (tag : QName) : Acts (openElement · plainReading tag) reader := by
  cases hlevel : reader.level with
  | zero => exact .inl fun builder => ⟨_, openElement_eq_error hbegun hlevel builder tag⟩
  | succ level =>
    exact .inr ⟨{ reader with mode := .text 0, level := level + 2, begun := true }, .openTag tag,
      fun builder => openElement_eq (reader.withBuilder builder) hlevel tag, rfl, rfl,
      ⟨by simp [hlevel], by simp [hlevel]⟩, rfl⟩

/-- A start tag may be the end tag at the same time. -/
theorem acts_emptyElement (tag : QName) :
    Acts (fun reader => do (← reader.openElement plainReading tag).closeElement plainReading tag)
      reader := by
  cases hlevel : reader.level with
  | zero =>
    refine .inl fun builder => ⟨.misplacedMarkup, ?_⟩
    simp only [openElement_eq_error hbegun hlevel builder tag]
    rfl
  | succ level =>
    exact .inr ⟨{ reader with mode := .text 0, level := level + 1, begun := true }, .emptyTag tag,
      fun builder => emptyElement_eq (reader.withBuilder builder) hlevel tag, rfl, rfl,
      ⟨by simp [hlevel], by simp [hlevel]⟩, rfl⟩

theorem acts_stepInTag (tag : QName) (blank : Bool) :
    Acts (stepInTag · plainReading tag blank c) reader :=
  .ite (fun _ => acts_goOn hbegun (Mode.follows_of_inStartTag rfl fun _ => rfl)) fun _ =>
  .ite (fun _ => acts_goOn hbegun (Mode.follows_of_inStartTag rfl fun _ => rfl)) fun _ =>
  .ite (fun _ => acts_openElement hbegun tag) fun _ =>
  .ite (fun _ => acts_goOn hbegun (Mode.follows_of_inStartTag rfl fun _ => rfl)) fun _ =>
  acts_error _

theorem acts_stepAfterName (tag name : QName) (equals : Bool) :
    Acts (stepAfterName · tag name equals c) reader :=
  .ite (fun _ => acts_goOn hbegun (Mode.follows_of_inStartTag rfl fun _ => rfl)) fun _ =>
  .ite (fun _ =>
    .ite (fun _ => acts_goOn hbegun (Mode.follows_of_inStartTag rfl fun _ => rfl)) fun _ =>
    acts_error _) fun _ =>
  .ite (fun h => acts_goOn hbegun (Mode.follows_of_inStartTag rfl fun _ => by
    simpa [Mode.isQuoted] using h)) fun _ =>
  acts_error _

theorem acts_stepAfterEndName (name : QName) (hmode : reader.mode.inStartTag = false) :
    Acts (stepAfterEndName · plainReading name c) reader :=
  .ite (fun _ => acts_goOn hbegun (Mode.follows_of_outside hmode rfl)) fun _ =>
  .ite (fun _ => acts_closeElement hbegun name) fun _ =>
  acts_error _

theorem acts_stepText (brackets : Nat) (hmode : reader.mode.inStartTag = false) :
    Acts (stepText · plainReading brackets c) reader :=
  .ite (fun _ => acts_goOn hbegun (Mode.follows_of_outside hmode rfl)) fun _ =>
  .iteOn (fun _ => Iff.rfl)
    (.ite (fun _ => acts_ok hbegun) fun _ => acts_error _) <|
  .ite (fun _ => acts_goOn hbegun (Mode.follows_of_outside hmode rfl)) fun _ =>
  .ite (fun _ => acts_error _) fun _ =>
  .ite (fun _ => acts_goOn hbegun (Mode.follows_of_outside hmode rfl)) fun _ =>
  .ite (fun _ => acts_goOn hbegun (Mode.follows_of_outside hmode rfl)) fun _ =>
  acts_error _

theorem acts_endReference (seen : List Char) (hmode : reader.mode.inStartTag = false) :
    Acts (endReference · plainReading seen) reader := by
  refine .bind fun reference => ?_
  cases reference with
  | char c => exact acts_goOn hbegun (Mode.follows_of_outside hmode rfl)
  | entity name => exact .inl fun _ => ⟨.unknownEntity, rfl⟩

theorem acts_stepOpened (hmode : reader.mode.inStartTag = false) : Acts (stepOpened · c) reader :=
  .ite (fun _ => acts_goOn hbegun (Mode.follows_of_outside hmode rfl)) fun _ =>
  .ite (fun _ => acts_goOn hbegun (Mode.follows_of_outside hmode rfl)) fun _ =>
  .ite (fun _ => acts_goOn hbegun (Mode.follows_of_outside hmode rfl)) fun _ =>
  .ite (fun _ => acts_goOn hbegun (Mode.follows_of_outside hmode rfl)) fun _ =>
  acts_error _

theorem acts_stepExclamation (seen : List Char) (hmode : reader.mode.inStartTag = false) :
    Acts (stepExclamation · plainReading seen c) reader :=
  .ite (fun _ => acts_goOn hbegun (Mode.follows_of_outside hmode rfl)) fun _ =>
  .ite (fun _ =>
    .iteOn (fun _ => Iff.rfl) (acts_goOn hbegun (Mode.follows_of_outside hmode rfl))
      (acts_error _)) fun _ =>
  .ite (fun _ => acts_goOn hbegun (Mode.follows_of_outside hmode rfl)) fun _ =>
  acts_error _

theorem acts_stepValue (tag name : QName) (quote : Char) (seen : List Char)
    (hmode : reader.mode = .attributeValue tag name quote seen) :
    Acts (stepValue · plainReading tag name quote seen c) reader := by
  refine .ite (fun _ => ?_) fun _ =>
    .ite (fun _ => acts_error _) fun _ =>
    .ite (fun _ => acts_goOn hbegun (Mode.follows_of_inStartTag rfl (by rw [hmode]; exact id)))
      fun _ => acts_error _
  cases hvalue : plainReading.value seen.reverse reader.references with
  | error e => exact .inl fun builder => ⟨e, by simp only [withBuilder, hvalue]; rfl⟩
  | ok result =>
    obtain ⟨value, references⟩ := result
    exact .inr ⟨{ reader with mode := .inTag tag false, references }, .addAttribute name value,
      fun builder => by simp only [withBuilder, hvalue]; rfl, value_count hvalue, hbegun, rfl, rfl,
      rfl⟩

/-- Each character is read as one of the actions. -/
theorem acts_step : Acts (step plainReading · c) reader := by
  -- In each mode the lemmas about `Acts` are put together as the step is.
  have hgoOn : ∀ {next : Mode}, reader.mode.inStartTag = false → next.isQuoted = true →
      Acts (goOn · next) reader :=
    fun hmode hnext => acts_goOn hbegun (Mode.follows_of_outside hmode hnext)
  have hgoOnInTag : ∀ {next : Mode}, next.inStartTag = true → next.isQuoted = true →
      Acts (goOn · next) reader :=
    fun hmode hnext => acts_goOn hbegun (Mode.follows_of_inStartTag hmode fun _ => hnext)
  cases hmode : reader.mode with
  | text brackets =>
    exact .congr (fun _ => by simp only [step, withBuilder, hmode])
      (acts_stepText hbegun c brackets (by rw [hmode]; rfl))
  | reference seen =>
    refine .congr (fun _ => by simp only [step, withBuilder, hmode]; rfl) <|
      Acts.ite (fun _ => acts_endReference hbegun seen (by rw [hmode]; rfl)) fun _ =>
      hgoOn (by rw [hmode]; rfl) rfl
  | opened =>
    exact .congr (fun _ => by simp only [step, withBuilder, hmode])
      (acts_stepOpened hbegun c (by rw [hmode]; rfl))
  | exclamation seen =>
    exact .congr (fun _ => by simp only [step, withBuilder, hmode])
      (acts_stepExclamation hbegun c seen (by rw [hmode]; rfl))
  | aside aside =>
    have hoff : reader.mode.inStartTag = false := by rw [hmode]; rfl
    rcases haside : aside.step c with e | _ | aside
    · exact .congr (fun _ => by simp only [step, withBuilder, hmode, haside]; rfl) (acts_error e)
    · exact .congr (fun _ => by simp only [step, withBuilder, hmode, haside]; rfl) (hgoOn hoff rfl)
    · exact .congr (fun _ => by simp only [step, withBuilder, hmode, haside]; rfl) (hgoOn hoff rfl)
  | startName seen =>
    refine .congr (fun _ => by simp only [step, withBuilder, hmode]; rfl) <|
      .ite (fun _ => hgoOn (by rw [hmode]; rfl) rfl) fun _ =>
      .bind fun tag => acts_stepInTag hbegun c tag false
  | inTag tag blank =>
    exact .congr (fun _ => by simp only [step, withBuilder, hmode])
      (acts_stepInTag hbegun c tag blank)
  | attributeName tag seen =>
    refine .congr (fun _ => by simp only [step, withBuilder, hmode]; rfl) <|
      .ite (fun _ => hgoOnInTag rfl rfl) fun _ =>
      .bind fun name => acts_stepAfterName hbegun c tag name false
  | afterName tag name equals =>
    exact .congr (fun _ => by simp only [step, withBuilder, hmode])
      (acts_stepAfterName hbegun c tag name equals)
  | attributeValue tag name quote seen =>
    exact .congr (fun _ => by simp only [step, withBuilder, hmode])
      (acts_stepValue hbegun c tag name quote seen hmode)
  | closingTag tag =>
    refine .congr (fun _ => by simp only [step, withBuilder, hmode]; rfl) <|
      .ite (fun _ => acts_emptyElement hbegun tag) fun _ => acts_error _
  | endName seen =>
    refine .congr (fun _ => by simp only [step, withBuilder, hmode]; rfl) <|
      .ite (fun _ => hgoOn (by rw [hmode]; rfl) rfl) fun _ =>
      .bind fun name => acts_stepAfterEndName hbegun c name (by rw [hmode]; rfl)
  | afterEndName name =>
    exact .congr (fun _ => by simp only [step, withBuilder, hmode])
      (acts_stepAfterEndName hbegun c name (by rw [hmode]; rfl))
  | ended => exact .congr (fun _ => by simp only [step, withBuilder, hmode]) (acts_ok hbegun)

end Begun

end Acts

variable {reader next : Reader} {c : Char} {text : List Char}

/-- Every step after the first start tag is one of the actions. -/
theorem exists_transition (hbegun : reader.begun = true)
    (h : reader.step plainReading c = .ok next) :
    ∃ action, Transition (step plainReading · c) reader next action ∧
      action.run reader.builder = .ok next.builder := by
  rcases acts_step hbegun c with hfails | ⟨after, action, htransition⟩
  · obtain ⟨e, he⟩ := hfails reader.builder
    cases h.symm.trans he
  · obtain ⟨builder, hbuilder, rfl⟩ :=
      Except.exists_of_map_eq_ok ((htransition.result reader.builder).symm.trans h)
    exact ⟨action, { htransition with }, hbuilder⟩

theorem run_cons_eq_ok (h : reader.run plainReading (c :: text) = .ok next) :
    ∃ between, reader.step plainReading c = .ok between ∧
      between.run plainReading text = .ok next :=
  Except.exists_of_bind_eq_ok h

/-- What no action makes smaller, reading does not make smaller. -/
theorem le_of_run {measure : Builder → Nat}
    (hmeasure : ∀ {action : Action} {builder after : Builder}, action.run builder = .ok after →
      measure builder ≤ measure after)
    (hbegun : reader.begun = true) (h : reader.run plainReading text = .ok next) :
    measure reader.builder ≤ measure next.builder := by
  induction text generalizing reader with
  | nil =>
    cases h
    exact Nat.le_refl _
  | cons c text ih =>
    obtain ⟨between, hstep, hrun⟩ := run_cons_eq_ok h
    obtain ⟨action, htransition, haction⟩ := exists_transition hbegun hstep
    exact Nat.le_trans (hmeasure haction) (ih htransition.begun hrun)

end Reader

namespace Builder

variable {builder next : Builder} {tag : QName}

theorem add_of_frames_eq_nil (h : builder.frames = []) (element : Element) :
    builder.add element = { builder with roots := element :: builder.roots } := by
  simp [add, h]

theorem add_of_frames_eq_cons {frame : Frame} {frames : List Frame}
    (h : builder.frames = frame :: frames) (element : Element) :
    builder.add element = { builder with
      frames := { frame with children := element :: frame.children } :: frames } := by
  simp [add, h]

/-- Only the children of open elements change when an element is added. -/
theorem map_frames_add {α : Type} {f : Frame → α}
    (hf : ∀ frame children, f { frame with children } = f frame) (element : Element) :
    (builder.add element).frames.map f = builder.frames.map f := by
  cases hframes : builder.frames with
  | nil => rw [add_of_frames_eq_nil hframes, hframes]
  | cons frame frames => simp [add_of_frames_eq_cons hframes, hf]

theorem length_frames_add (element : Element) :
    (builder.add element).frames.length = builder.frames.length := by
  cases hframes : builder.frames with
  | nil => rw [add_of_frames_eq_nil hframes, hframes]
  | cons frame frames => simp [add_of_frames_eq_cons hframes]

theorem roots_add (h : builder.frames ≠ []) (element : Element) :
    (builder.add element).roots = builder.roots := by
  obtain ⟨frame, frames, hframes⟩ := List.exists_cons_of_ne_nil h
  rw [add_of_frames_eq_cons hframes]

theorem length_roots_add_le (h : builder.roots = []) (element : Element) :
    (builder.add element).roots.length ≤ 1 := by
  unfold add
  split <;> simp [h]

@[simp] theorem pending_add (element : Element) :
    (builder.add element).pending = builder.pending := by
  unfold add
  split <;> rfl

/-- A start tag adds an open element. -/
theorem exists_of_openTag_eq_ok (h : builder.openTag tag = .ok next) :
    ∃ frame : Frame, frame.written = tag ∧ frame.name.localPart = tag.localPart ∧
      frame.children = [] ∧ next = ⟨frame :: builder.frames, builder.roots, []⟩ := by
  obtain ⟨⟨scope, attributes⟩, -, h⟩ := Except.exists_of_bind_eq_ok h
  obtain ⟨name, hname, h⟩ := Except.exists_of_bind_eq_ok h
  cases h
  refine ⟨⟨tag, scope, name, attributes, []⟩, rfl, ?_, rfl, rfl⟩
  unfold Scope.elementName at hname
  split at hname
  · cases hname
    rfl
  · split at hname
    · cases hname
      rfl
    · cases hname

/-- An end tag closes the innermost open element. -/
theorem exists_of_closeTag_eq_ok (h : builder.closeTag tag = .ok next) :
    ∃ frame frames, builder.frames = frame :: frames ∧ frame.written = tag ∧
      next = add ⟨frames, builder.roots, []⟩ frame.close := by
  obtain ⟨resolved, -, h⟩ := Except.exists_of_bind_eq_ok h
  split at h
  · cases h
  · next frame frames hframes =>
    split at h
    · next hwritten =>
      cases h
      exact ⟨frame, frames, hframes, hwritten, rfl⟩
    · cases h

section Congr

variable {other : Builder} (hpending : other.pending = builder.pending)
  (hscope : other.scope = builder.scope)
include hpending hscope

theorem resolvePending_congr : other.resolvePending = builder.resolvePending := by
  simp only [resolvePending, hpending, hscope]

/-- What a start tag adds depends on the declarations in force only. -/
theorem exists_openTag_congr (h : builder.openTag tag = .ok next) :
    ∃ frame : Frame, next = ⟨frame :: builder.frames, builder.roots, []⟩ ∧
      other.openTag tag = .ok ⟨frame :: other.frames, other.roots, []⟩ := by
  have hresolve := resolvePending_congr hpending hscope
  obtain ⟨⟨scope, attributes⟩, hresolved, h⟩ := Except.exists_of_bind_eq_ok h
  obtain ⟨name, hname, h⟩ := Except.exists_of_bind_eq_ok h
  cases h
  refine ⟨⟨tag, scope, name, attributes, []⟩, rfl, ?_⟩
  rw [openTag, hresolve, hresolved]
  change (scope.elementName tag >>= _) = _
  rw [hname]
  rfl

/-- An end tag that closes an element closes the same element elsewhere. -/
theorem closeTag_congr {frame : Frame} {frames others : List Frame}
    (hframes : builder.frames = frame :: frames) (hothers : other.frames = frame :: others)
    (h : builder.closeTag tag = .ok next) :
    other.closeTag tag = .ok (add ⟨others, other.roots, []⟩ frame.close) := by
  have hresolve := resolvePending_congr hpending hscope
  obtain ⟨resolved, hresolved, h⟩ := Except.exists_of_bind_eq_ok h
  rw [hframes] at h
  dsimp only at h
  split at h
  · next hwritten =>
    simp only [closeTag, hresolve, hresolved, hothers]
    exact if_pos hwritten
  · cases h

end Congr

/-- What holds of the elements after the start tag of the root element. -/
structure IsRegular (builder : Builder) : Prop where
  named : builder.frames.map (·.name.localPart) = builder.frames.map (·.written.localPart)
  roots : builder.frames ≠ [] → builder.roots = []
  oneRoot : builder.roots.length ≤ 1

namespace IsRegular

theorem openTag (h : builder.IsRegular) (hne : builder.frames ≠ [])
    (hopened : builder.openTag tag = .ok next) :
    next.IsRegular ∧ next.frames.length = builder.frames.length + 1 := by
  obtain ⟨frame, hwritten, hname, -, rfl⟩ := exists_of_openTag_eq_ok hopened
  exact ⟨⟨by simp [h.named, hname, hwritten], fun _ => h.roots hne, h.oneRoot⟩, rfl⟩

theorem closeTag (h : builder.IsRegular) (hclosed : builder.closeTag tag = .ok next) :
    next.IsRegular ∧ builder.frames.length = next.frames.length + 1 := by
  obtain ⟨frame, frames, hframes, -, rfl⟩ := exists_of_closeTag_eq_ok hclosed
  have hroots : builder.roots = [] := h.roots (by simp [hframes])
  have hnamed := h.named
  rw [hframes] at hnamed
  refine ⟨⟨?_, fun hne => ?_, ?_⟩, by simp [hframes, length_frames_add]⟩
  · rw [map_frames_add fun _ _ => rfl, map_frames_add fun _ _ => rfl]
    exact (List.cons.inj hnamed).2
  · rw [roots_add, hroots]
    rintro rfl
    exact hne rfl
  · rw [hroots]
    exact length_roots_add_le rfl _

/-- The elements stay regular, and as many are open as there should be. -/
theorem run (h : builder.IsRegular) {action : Action} {level : Nat}
    (hlevel : action.Moves builder.frames.length level) (hrun : action.run builder = .ok next) :
    next.IsRegular ∧ level = next.frames.length := by
  cases action with
  | keep =>
    cases hrun
    exact ⟨h, hlevel⟩
  | addAttribute name value =>
    cases hrun
    exact ⟨⟨h.named, h.roots, h.oneRoot⟩, hlevel⟩
  | openTag tag =>
    obtain ⟨hregular, hlength⟩ := h.openTag (by simpa using hlevel.1) hrun
    exact ⟨hregular, hlevel.2.trans hlength.symm⟩
  | closeTag tag =>
    obtain ⟨hregular, hlength⟩ := h.closeTag hrun
    exact ⟨hregular, Nat.succ.inj (hlevel.symm.trans hlength)⟩
  | emptyTag tag =>
    obtain ⟨opened, hopened, hclosed⟩ := Except.exists_of_bind_eq_ok hrun
    obtain ⟨hregular, hlength⟩ := h.openTag (by simpa using hlevel.1) hopened
    obtain ⟨hregular, hless⟩ := hregular.closeTag hclosed
    exact ⟨hregular, hlevel.2.trans (Nat.succ.inj (hlength.symm.trans hless))⟩

end IsRegular

end Builder

namespace Reader

variable {reader next : Reader} {c : Char} {text : List Char}

/-- What holds of a reader after the start tag of the root element. -/
structure IsRegular (reader : Reader) : Prop where
  begun : reader.begun = true
  references : reader.references = 0
  level : reader.level = reader.builder.frames.length
  builder : reader.builder.IsRegular
  pending : reader.mode.inStartTag = false → reader.builder.pending = []
  quoted : reader.mode.isQuoted = true

/-- Such a reader is told by its mode and its elements. -/
theorem IsRegular.ext {other : Reader} (h : reader.IsRegular) (hother : other.IsRegular)
    (hmode : reader.mode = other.mode) (hbuilder : reader.builder = other.builder) :
    reader = other := by
  have hlevel : reader.level = other.level := by rw [h.level, hother.level, hbuilder]
  have hbegun := h.begun.trans hother.begun.symm
  have hreferences := h.references.trans hother.references.symm
  cases reader
  cases other
  simp_all only

theorem IsRegular.of_step (h : reader.IsRegular) (hstep : reader.step plainReading c = .ok next) :
    next.IsRegular := by
  obtain ⟨action, htransition, hrun⟩ := exists_transition h.begun hstep
  have hlevel := htransition.level
  rw [h.level] at hlevel
  obtain ⟨hregular, hlevel⟩ := h.builder.run hlevel hrun
  have hmode := htransition.mode
  have hquoted : next.mode.isQuoted = true := by
    cases action with
    | keep => exact hmode.2 h.quoted
    | addAttribute => exact hmode.2
    | openTag | closeTag | emptyTag => rw [hmode]; rfl
  refine ⟨htransition.begun, htransition.references.trans h.references, hlevel, hregular,
    fun hnext => ?_, hquoted⟩
  cases action with
  | keep => exact (Except.ok.inj hrun) ▸ h.pending (hmode.1 hnext)
  | addAttribute => exact Bool.noConfusion (hmode.1.symm.trans hnext)
  | openTag =>
    obtain ⟨frame, -, -, -, hbuilder⟩ := Builder.exists_of_openTag_eq_ok hrun
    rw [hbuilder]
  | closeTag =>
    obtain ⟨frame, frames, -, -, hbuilder⟩ := Builder.exists_of_closeTag_eq_ok hrun
    rw [hbuilder, Builder.pending_add]
  | emptyTag =>
    obtain ⟨opened, -, hclosed⟩ := Except.exists_of_bind_eq_ok hrun
    obtain ⟨frame, frames, -, -, hbuilder⟩ := Builder.exists_of_closeTag_eq_ok hclosed
    rw [hbuilder, Builder.pending_add]

theorem IsRegular.of_run (h : reader.IsRegular) (hrun : reader.run plainReading text = .ok next) :
    next.IsRegular := by
  induction text generalizing reader with
  | nil =>
    cases hrun
    exact h
  | cons c text ih =>
    obtain ⟨between, hstep, hrun⟩ := run_cons_eq_ok hrun
    exact ih (h.of_step hstep) hrun

end Reader

namespace Builder

/-- A relation of elements that is kept when both read the same, as long as the first ones have a
property. -/
structure Simulation (P : Builder → Prop) (R : Builder → Builder → Prop) : Prop where
  addAttribute : ∀ {first second name value}, R first second →
    R (first.addAttribute name value) (second.addAttribute name value)
  openTag : ∀ {first second tag next}, R first second → first.openTag tag = .ok next →
    ∃ other, second.openTag tag = .ok other ∧ R next other
  closeTag : ∀ {first second tag next}, R first second → first.closeTag tag = .ok next → P next →
    ∃ other, second.closeTag tag = .ok other ∧ R next other

variable {P : Builder → Prop} {R : Builder → Builder → Prop} {first second next : Builder}

theorem Simulation.exists_run (hR : Simulation P R) {action : Action} (hrelated : R first second)
    (h : action.run first = .ok next) (hnext : P next) :
    ∃ other, action.run second = .ok other ∧ R next other := by
  cases action with
  | keep =>
    cases h
    exact ⟨second, rfl, hrelated⟩
  | addAttribute name value =>
    cases h
    exact ⟨_, rfl, hR.addAttribute hrelated⟩
  | openTag tag => exact hR.openTag hrelated h
  | closeTag tag => exact hR.closeTag hrelated h hnext
  | emptyTag tag =>
    obtain ⟨opened, hopened, hclosed⟩ := Except.exists_of_bind_eq_ok h
    obtain ⟨otherOpened, hotherOpened, hrelated⟩ := hR.openTag hrelated hopened
    obtain ⟨other, hother, hrelated⟩ := hR.closeTag hrelated hclosed hnext
    exact ⟨other, by rw [Action.run, hotherOpened]; exact hother, hrelated⟩

end Builder

namespace Reader

variable {P : Builder → Prop} {R : Builder → Builder → Prop} {reader next : Reader}
  {builder : Builder} {text : List Char}

/-- What can be read somewhere can be read in the same way where the elements are related. -/
theorem exists_run_of_simulation (hR : Builder.Simulation P R)
    (hP : ∀ {between : Reader} {rest}, between.begun = true →
      between.run plainReading rest = .ok next → P between.builder)
    (hbegun : reader.begun = true) (hrelated : R reader.builder builder)
    (h : reader.run plainReading text = .ok next) :
    ∃ other, (reader.withBuilder builder).run plainReading text = .ok (next.withBuilder other) ∧
      R next.builder other := by
  induction text generalizing reader builder with
  | nil =>
    cases h
    exact ⟨builder, rfl, hrelated⟩
  | cons c text ih =>
    obtain ⟨between, hstep, hrun⟩ := run_cons_eq_ok h
    obtain ⟨action, htransition, haction⟩ := exists_transition hbegun hstep
    obtain ⟨other, hother, hrelated⟩ :=
      hR.exists_run hrelated haction (hP htransition.begun hrun)
    obtain ⟨last, hlast, hrelated⟩ := ih htransition.begun hrelated hrun
    have hsame : (reader.withBuilder builder).step plainReading c =
        .ok (between.withBuilder other) := by
      rw [htransition.result, hother]
      rfl
    exact ⟨last, by simp only [run, hsame]; exact hlast, hrelated⟩

end Reader

end MotifSearch.Xml
