import Mathlib.Tactic.SplitIfs
import MotifSearch.Proofs.Xml.Actions

/-!
# Reading deeper in a document

How many elements a reader is in does not matter for what it reads, as long as it is in one at all:
with some more elements around, each character is read in the same way. So a text that is read
inside of an element up to a place that is still in it is read in the same way further down. And a
text that is read further down, without leaving the elements it is read in, is read without the
elements around those.

## Main definitions

* `Reader.deepen` — a reader with more elements around it

## Main results

* `step_deepen` — a character is read in the same way
* `run_deepen`, `exists_of_run_deepen` — what this means for a text
-/

namespace MotifSearch.Xml.Reader

/-- The reader with some more elements around it. -/
def deepen (depth : Nat) (reader : Reader) : Reader :=
  { reader with level := reader.level + depth }

theorem deepen_injective (depth : Nat) : Function.Injective (deepen depth) := by
  rintro ⟨mode, level, begun, builder, references⟩ ⟨mode', level', begun', builder', references'⟩ h
  simp only [deepen, Reader.mk.injEq, Nat.add_right_cancel_iff] at h ⊢
  exact h

variable {reader next last : Reader} {depth : Nat} {c : Char} {text : List Char}

section Step

variable (hlevel : reader.level ≠ 0)
include hlevel

theorem isInside_of_level : reader.isInside plainReading = true := by
  simp [isInside, hlevel]

theorem level_deepen_ne_zero : (reader.deepen depth).level ≠ 0 := by
  simp [deepen, hlevel]

theorem exists_level (depth : Nat) : ∃ level, reader.level = level + 1 ∧
    (reader.deepen depth).level = level + depth + 1 := by
  obtain ⟨level, hsucc⟩ := Nat.exists_eq_succ_of_ne_zero hlevel
  refine ⟨level, hsucc, ?_⟩
  rw [deepen, hsucc]
  exact Nat.add_right_comm level 1 depth

theorem openElement_deepen (tag : QName) : (reader.deepen depth).openElement plainReading tag =
    (reader.openElement plainReading tag).map (deepen depth) := by
  obtain ⟨level, hsucc, hdeep⟩ := exists_level hlevel depth
  rw [openElement_eq reader hsucc, openElement_eq _ hdeep, Nat.add_right_comm level depth 2]
  change (reader.builder.openTag tag).map _ = _
  cases reader.builder.openTag tag <;> rfl

theorem closeElement_deepen (name : QName) :
    (reader.deepen depth).closeElement plainReading name =
      (reader.closeElement plainReading name).map (deepen depth) := by
  obtain ⟨level, hsucc, hdeep⟩ := exists_level hlevel depth
  rw [closeElement_eq reader hsucc, closeElement_eq _ hdeep]
  change (reader.builder.closeTag name).map _ = _
  cases reader.builder.closeTag name <;> rfl

theorem emptyElement_deepen (tag : QName) :
    (do (← (reader.deepen depth).openElement plainReading tag).closeElement plainReading tag) =
      (do (← reader.openElement plainReading tag).closeElement plainReading tag).map
        (deepen depth) := by
  rw [openElement_deepen hlevel]
  cases hopened : reader.openElement plainReading tag with
  | error e => rfl
  | ok opened =>
    refine closeElement_deepen ?_ tag
    -- The start tag leads one level down, so it leads into an element.
    obtain ⟨level, hsucc⟩ := Nat.exists_eq_succ_of_ne_zero hlevel
    rw [openElement_eq reader hsucc] at hopened
    obtain ⟨builder, -, rfl⟩ := Except.exists_of_map_eq_ok hopened
    exact Nat.succ_ne_zero _

theorem stepText_deepen (brackets : Nat) (c : Char) :
    (reader.deepen depth).stepText plainReading brackets c =
      (reader.stepText plainReading brackets c).map (deepen depth) := by
  simp only [stepText, isInside_of_level hlevel, isInside_of_level (level_deepen_ne_zero hlevel)]
  split_ifs <;> rfl

theorem stepExclamation_deepen (seen : List Char) (c : Char) :
    (reader.deepen depth).stepExclamation plainReading seen c =
      (reader.stepExclamation plainReading seen c).map (deepen depth) := by
  simp only [stepExclamation, isInside_of_level hlevel,
    isInside_of_level (level_deepen_ne_zero hlevel)]
  split_ifs <;> rfl

theorem stepInTag_deepen (tag : QName) (blank : Bool) (c : Char) :
    (reader.deepen depth).stepInTag plainReading tag blank c =
      (reader.stepInTag plainReading tag blank c).map (deepen depth) := by
  simp only [stepInTag, openElement_deepen hlevel]
  split_ifs <;> rfl

theorem stepAfterEndName_deepen (name : QName) (c : Char) :
    (reader.deepen depth).stepAfterEndName plainReading name c =
      (reader.stepAfterEndName plainReading name c).map (deepen depth) := by
  simp only [stepAfterEndName, closeElement_deepen hlevel]
  split_ifs <;> rfl

end Step

theorem stepOpened_deepen (c : Char) :
    (reader.deepen depth).stepOpened c = (reader.stepOpened c).map (deepen depth) := by
  simp only [stepOpened]
  split_ifs <;> rfl

theorem stepAfterName_deepen (tag name : QName) (equals : Bool) (c : Char) :
    (reader.deepen depth).stepAfterName tag name equals c =
      (reader.stepAfterName tag name equals c).map (deepen depth) := by
  simp only [stepAfterName]
  split_ifs <;> rfl

theorem endReference_deepen (seen : List Char) :
    (reader.deepen depth).endReference plainReading seen =
      (reader.endReference plainReading seen).map (deepen depth) := by
  simp only [endReference]
  cases Reference.ofText seen.reverse with
  | error e => rfl
  | ok reference => cases reference <;> rfl

theorem stepValue_deepen (tag name : QName) (quote : Char) (seen : List Char) (c : Char) :
    (reader.deepen depth).stepValue plainReading tag name quote seen c =
      (reader.stepValue plainReading tag name quote seen c).map (deepen depth) := by
  simp only [stepValue]
  split_ifs
  · change (plainReading.value seen.reverse reader.references >>= _) = _
    cases plainReading.value seen.reverse reader.references <;> rfl
  · rfl
  · rfl
  · rfl

/-- A character is read in the same way with more elements around. -/
theorem step_deepen (hlevel : reader.level ≠ 0) (c : Char) :
    (reader.deepen depth).step plainReading c =
      (reader.step plainReading c).map (deepen depth) := by
  -- Only what may end or begin an element asks for the level, and it only asks whether it is zero.
  have hsame : (reader.deepen depth).mode = reader.mode := rfl
  cases hmode : reader.mode with
  | text brackets =>
    simp only [step, hsame, hmode]
    exact stepText_deepen hlevel brackets c
  | reference seen =>
    simp only [step, hsame, hmode, endReference_deepen]
    split_ifs <;> rfl
  | opened =>
    simp only [step, hsame, hmode]
    exact stepOpened_deepen c
  | exclamation seen =>
    simp only [step, hsame, hmode]
    exact stepExclamation_deepen hlevel seen c
  | aside aside =>
    simp only [step, hsame, hmode]
    rcases aside.step c with e | _ | aside <;> rfl
  | startName seen =>
    simp only [step, hsame, hmode]
    split_ifs
    · rfl
    · cases tagName seen.reverse with
      | error e => rfl
      | ok tag => exact stepInTag_deepen hlevel tag false c
  | inTag tag blank =>
    simp only [step, hsame, hmode]
    exact stepInTag_deepen hlevel tag blank c
  | attributeName tag seen =>
    simp only [step, hsame, hmode]
    split_ifs
    · rfl
    · cases QName.ofText seen.reverse with
      | error e => rfl
      | ok name => exact stepAfterName_deepen tag name false c
  | afterName tag name equals =>
    simp only [step, hsame, hmode]
    exact stepAfterName_deepen tag name equals c
  | attributeValue tag name quote seen =>
    simp only [step, hsame, hmode]
    exact stepValue_deepen tag name quote seen c
  | closingTag tag =>
    simp only [step, hsame, hmode]
    split_ifs
    · exact emptyElement_deepen hlevel tag
    · rfl
  | endName seen =>
    simp only [step, hsame, hmode]
    split_ifs
    · rfl
    · cases QName.ofText seen.reverse with
      | error e => rfl
      | ok name => exact stepAfterEndName_deepen hlevel name c
  | afterEndName name =>
    simp only [step, hsame, hmode]
    exact stepAfterEndName_deepen hlevel name c
  | ended =>
    simp only [step, hsame, hmode]
    rfl

/-- Nothing leads back into an element once all of them are closed. -/
theorem level_of_run (hbegun : reader.begun = true) (hlevel : reader.level = 0)
    (h : reader.run plainReading text = .ok last) : last.level = 0 := by
  induction text generalizing reader with
  | nil =>
    cases h
    exact hlevel
  | cons c text ih =>
    obtain ⟨next, hstep, hrun⟩ := run_cons_eq_ok h
    obtain ⟨action, htransition, -⟩ := exists_transition hbegun hstep
    refine ih htransition.begun ?_ hrun
    -- No tag is read at this level.
    have hmoves := htransition.level
    rw [hlevel] at hmoves
    cases action with
    | keep | addAttribute => exact hmoves
    | openTag | emptyTag => exact absurd rfl hmoves.1
    | closeTag => cases hmoves

/-- A text that does not leave an element is read in the same way with more elements around. -/
theorem run_deepen (depth : Nat) (hbegun : reader.begun = true)
    (h : reader.run plainReading text = .ok last) (hlast : last.level ≠ 0) :
    (reader.deepen depth).run plainReading text = .ok (last.deepen depth) := by
  induction text generalizing reader with
  | nil =>
    cases h
    rfl
  | cons c text ih =>
    obtain ⟨next, hstep, hrun⟩ := run_cons_eq_ok h
    obtain ⟨action, htransition, -⟩ := exists_transition hbegun hstep
    have hlevel : reader.level ≠ 0 := fun hzero => hlast (level_of_run hbegun hzero h)
    simp only [run, step_deepen hlevel, hstep]
    exact ih htransition.begun hrun

/-- A text that is read with more elements around, and does not leave the inner ones at any place,
is read without the others. -/
theorem exists_of_run_deepen (h : (reader.deepen depth).run plainReading text = .ok last)
    (hinside : ∀ first second between, text = first ++ second →
      (reader.deepen depth).run plainReading first = .ok between → depth < between.level) :
    ∃ other, reader.run plainReading text = .ok other ∧ last = other.deepen depth := by
  induction text generalizing reader with
  | nil =>
    cases h
    exact ⟨reader, rfl, rfl⟩
  | cons c text ih =>
    have hlevel : reader.level ≠ 0 := by
      have hdeep : depth < reader.level + depth := hinside [] (c :: text) _ rfl rfl
      omega
    obtain ⟨deep, hstep, hrun⟩ := run_cons_eq_ok h
    rw [step_deepen hlevel] at hstep
    obtain ⟨next, hnext, rfl⟩ := Except.exists_of_map_eq_ok hstep
    obtain ⟨other, hother, rfl⟩ := ih hrun fun first second between hsplit hfirst =>
      hinside (c :: first) second between (by rw [hsplit, List.cons_append])
        (by simp only [run, step_deepen hlevel, hnext]; exact hfirst)
    exact ⟨other, by simp only [run, hnext]; exact hother, rfl⟩

end MotifSearch.Xml.Reader
