import MotifSearch.Proofs.Xml.Actions

/-!
# What end tags close

An end tag on a line of its own closes the innermost open element if it is read in character data.
In any other place the text is not read, or what has been begun goes on beyond it.

## Main definitions

* `isClosing`, `Mode.isWaiting` — whether only some later character can end what has been begun
* `Mode.isBetween` — whether blanks are passed over, but no new tag may begin

## Main results

* `run_kept` — how a text is kept that ends nothing
* `exists_of_run_endTag` — what an end tag does in character data
* `isWaiting_of_run_lines` — elsewhere nothing leads back to character data
-/

namespace MotifSearch.Xml

section Chars

variable {c d : Char}

theorem ne_of_isNameChar (hc : isNameChar c = true) (hd : isNameChar d = false) : c ≠ d := by
  rintro rfl
  exact Bool.noConfusion (hc.symm.trans hd)

theorem isBlank_of_isNameChar (hc : isNameChar c = true) : isBlank c = false := by
  have hne : ∀ d, isNameChar d = false → (c == d) = false :=
    fun d hd => beq_eq_false_iff_ne.mpr (ne_of_isNameChar hc hd)
  rw [isBlank, hne ' ' (by decide), hne '\t' (by decide), hne '\n' (by decide),
    hne '\r' (by decide)]
  rfl

end Chars

namespace Aside

/-- Whether the last character read is no part of the end. -/
def isWaiting : Aside → Bool
  | comment 0 | instruction false | literal 0 => true
  | _ => false

variable {aside : Aside} {next : Option Aside} {c : Char}

/-- What ends nothing leaves an aside as it is. -/
theorem eq_some_of_step (hwaiting : aside.isWaiting = true) (hhyphen : c ≠ '-')
    (hquestion : c ≠ '?') (hbracket : c ≠ ']') (h : aside.step c = .ok next) :
    next = some aside := by
  have hplain : (c == '?') = false := beq_eq_false_iff_ne.mpr hquestion
  unfold isWaiting at hwaiting
  split at hwaiting
  · rw [step, if_neg (by decide), if_neg hhyphen] at h
    split at h <;> cases h
    rfl
  · rw [step, if_neg (by simp), hplain] at h
    split at h <;> cases h
    rfl
  · rw [step, if_neg (by simp), if_neg hbracket] at h
    split at h <;> cases h
    rfl
  · cases hwaiting

/-- After a line break an aside waits for its end. -/
theorem exists_of_step_newline (h : aside.step '\n' = .ok next) :
    ∃ waiting : Aside, waiting.isWaiting = true ∧ next = some waiting := by
  cases aside with
  | comment hyphens =>
    rw [step] at h
    split at h <;> cases h
    exact ⟨_, rfl, rfl⟩
  | target seen =>
    cases seen with
    | nil => cases h
    | cons first seen =>
      cases h
      exact ⟨_, rfl, rfl⟩
  | instruction question =>
    rw [step, if_neg (by simp)] at h
    cases h
    exact ⟨_, rfl, rfl⟩
  | literal brackets =>
    rw [step, if_neg (by simp)] at h
    cases h
    exact ⟨_, rfl, rfl⟩

end Aside

/-- Whether a character may belong to the end of a reference or of an aside. -/
def isClosing (c : Char) : Bool :=
  c == ';' || c == '-' || c == '?' || c == ']'

namespace Mode

/-- Whether only a closing character can end what has been begun. -/
def isWaiting : Mode → Bool
  | reference _ | ended => true
  | .aside part => part.isWaiting
  | _ => false

/-- Whether blanks are passed over, but no new tag may begin. -/
def isBetween : Mode → Bool
  | inTag .. | afterName .. | attributeValue .. | afterEndName _ => true
  | _ => false

end Mode

namespace Reader

variable {reader next last : Reader} {text rest : List Char} {c : Char}

/-- What ends nothing leaves the reader waiting. -/
theorem isWaiting_of_step (hmode : reader.mode.isWaiting = true)
    (hc : isClosing c = false) (h : reader.step plainReading c = .ok next) :
    next.mode.isWaiting = true := by
  simp only [isClosing, Bool.or_eq_false_iff, beq_eq_false_iff_ne] at hc
  obtain ⟨⟨⟨hsemicolon, hhyphen⟩, hquestion⟩, hbracket⟩ := hc
  unfold Mode.isWaiting at hmode
  split at hmode
  · next seen heq =>
    simp only [step, heq, hsemicolon, if_false] at h
    cases h
    rfl
  · next heq =>
    simp only [step, heq] at h
    cases h
    rw [heq]
    rfl
  · next aside heq =>
    simp only [step, heq] at h
    obtain ⟨after, hafter, h⟩ := Except.exists_of_bind_eq_ok h
    obtain rfl := Aside.eq_some_of_step hmode hhyphen hquestion hbracket hafter
    cases h
    exact hmode
  · cases hmode

/-- Blanks are passed over. -/
theorem isBetween_of_step (hmode : reader.mode.isBetween = true)
    (hquoted : reader.mode.isQuoted = true) (hc : isBlank c = true)
    (h : reader.step plainReading c = .ok next) : next.mode.isBetween = true := by
  unfold Mode.isBetween at hmode
  split at hmode
  · next tag blank heq =>
    simp only [step, heq, stepInTag, hc, if_true] at h
    cases h
    rfl
  · next tag name equals heq =>
    simp only [step, heq, stepAfterName, hc, if_true] at h
    cases h
    rfl
  · next tag name quote seen heq =>
    rw [heq] at hquoted
    simp only [Mode.isQuoted, Bool.or_eq_true, beq_iff_eq] at hquoted
    have hquote : c ≠ quote := by
      rintro rfl
      rcases hquoted with rfl | rfl <;> cases hc
    have htag : c ≠ '<' := by
      rintro rfl
      cases hc
    simp only [step, heq, stepValue, hquote, htag, if_false, isAllowed, hc, Bool.true_or,
      if_true] at h
    cases h
    rfl
  · next name heq =>
    simp only [step, heq, stepAfterEndName, hc, if_true] at h
    cases h
    rfl
  · cases hmode

/-- No tag may begin there. -/
theorem step_ne_ok_of_isBetween (hmode : reader.mode.isBetween = true)
    (hquoted : reader.mode.isQuoted = true) : reader.step plainReading '<' ≠ .ok next := by
  intro h
  unfold Mode.isBetween at hmode
  split at hmode
  · next tag blank heq =>
    simp only [step, heq] at h
    cases blank <;> cases h
  · next tag name equals heq =>
    simp only [step, heq] at h
    cases equals <;> cases h
  · next tag name quote seen heq =>
    rw [heq] at hquoted
    simp only [Mode.isQuoted, Bool.or_eq_true, beq_iff_eq] at hquoted
    simp only [step, heq] at h
    rcases hquoted with rfl | rfl <;> cases h
  · next name heq =>
    simp only [step, heq] at h
    cases h
  · cases hmode

/-- Outside of character data, after a line break. -/
theorem isWaiting_or_isBetween_of_step (hmode : ∀ brackets, reader.mode ≠ .text brackets)
    (hquoted : reader.mode.isQuoted = true) (h : reader.step plainReading '\n' = .ok next) :
    next.mode.isWaiting = true ∨ next.mode.isBetween = true := by
  cases heq : reader.mode with
  | text brackets => exact absurd heq (hmode brackets)
  | reference seen =>
    simp only [step, heq] at h
    cases h
    exact .inl rfl
  | opened =>
    simp only [step, heq] at h
    cases h
  | exclamation seen =>
    -- The mark that is begun would have to hold the line break.
    have hmark : ∀ {mark : List Char}, '\n' ∉ mark → seen ++ ['\n'] ≠ mark := by
      rintro _ hmark rfl
      exact hmark (by simp)
    have hbegun : ¬((seen ++ ['\n']).isPrefixOf "[CDATA[".toList = true) := fun hprefix =>
      absurd ((List.isPrefixOf_iff_prefix.mp hprefix).subset
        (List.mem_append_right seen (List.mem_singleton_self '\n'))) (by decide +kernel)
    simp only [step, heq, stepExclamation] at h
    rw [if_neg (hmark (by decide +kernel)), if_neg (hmark (by decide +kernel)),
      if_neg (not_or.mpr ⟨hmark (by decide), hbegun⟩)] at h
    cases h
  | aside aside =>
    simp only [step, heq] at h
    obtain ⟨after, hafter, h⟩ := Except.exists_of_bind_eq_ok h
    obtain ⟨waiting, hwaiting, rfl⟩ := Aside.exists_of_step_newline hafter
    cases h
    exact .inl hwaiting
  | startName seen =>
    simp only [step, heq] at h
    obtain ⟨tag, -, h⟩ := Except.exists_of_bind_eq_ok h
    cases h
    exact .inr rfl
  | attributeName tag seen =>
    simp only [step, heq] at h
    obtain ⟨name, -, h⟩ := Except.exists_of_bind_eq_ok h
    cases h
    exact .inr rfl
  | closingTag tag =>
    simp only [step, heq] at h
    cases h
  | endName seen =>
    simp only [step, heq] at h
    obtain ⟨name, -, h⟩ := Except.exists_of_bind_eq_ok h
    cases h
    exact .inr rfl
  | inTag | afterName | attributeValue | afterEndName =>
    exact .inr (isBetween_of_step (by rw [heq]; rfl) hquoted rfl h)
  | ended =>
    simp only [step, heq] at h
    cases h
    exact .inl (by rw [heq]; rfl)

theorem isWaiting_of_run (hmode : reader.mode.isWaiting = true)
    (htext : ∀ c ∈ text, isClosing c = false) (h : reader.run plainReading text = .ok last) :
    last.mode.isWaiting = true := by
  induction text generalizing reader with
  | nil =>
    cases h
    exact hmode
  | cons c text ih =>
    obtain ⟨next, hstep, hrun⟩ := run_cons_eq_ok h
    exact ih (isWaiting_of_step hmode (htext c (by simp)) hstep)
      (fun d hd => htext d (List.mem_cons_of_mem c hd)) hrun

theorem run_ne_ok_of_isBetween {blanks : List Char} (hregular : reader.IsRegular)
    (hmode : reader.mode.isBetween = true) (hblanks : ∀ c ∈ blanks, isBlank c = true) :
    reader.run plainReading (blanks ++ '<' :: rest) ≠ .ok last := by
  intro h
  induction blanks generalizing reader with
  | nil =>
    obtain ⟨next, hstep, -⟩ := run_cons_eq_ok h
    exact step_ne_ok_of_isBetween hmode hregular.quoted hstep
  | cons c blanks ih =>
    obtain ⟨next, hstep, hrun⟩ := run_cons_eq_ok h
    exact ih (hregular.of_step hstep)
      (isBetween_of_step hmode hregular.quoted (hblanks c (by simp)) hstep)
      (fun d hd => hblanks d (List.mem_cons_of_mem c hd)) hrun

/-- Where a tag cannot begin, tags on lines of their own do not lead back to character data. -/
theorem isWaiting_of_run_lines {blanks : List Char} (hregular : reader.IsRegular)
    (hmode : ∀ brackets, reader.mode ≠ .text brackets) (hblanks : ∀ c ∈ blanks, isBlank c = true)
    (htext : ∀ c ∈ blanks ++ '<' :: rest, isClosing c = false)
    (h : reader.run plainReading ('\n' :: (blanks ++ '<' :: rest)) = .ok last) :
    last.mode.isWaiting = true := by
  obtain ⟨next, hstep, hrun⟩ := run_cons_eq_ok h
  rcases isWaiting_or_isBetween_of_step hmode hregular.quoted hstep with hwaiting | hbetween
  · exact isWaiting_of_run hwaiting htext hrun
  · exact absurd hrun (run_ne_ok_of_isBetween (hregular.of_step hstep) hbetween hblanks)

/-- A blank counts as character data. -/
theorem exists_of_step_blank {brackets : Nat} (hmode : reader.mode = .text brackets)
    (hc : isBlank c = true) :
    ∃ other, reader.step plainReading c = .ok { reader with mode := .text other } := by
  have hne : ∀ d, isBlank d = false → c ≠ d := by
    rintro d hd rfl
    exact Bool.noConfusion (hc.symm.trans hd)
  simp only [step, hmode, stepText, if_neg (hne '<' rfl), hc, if_true]
  split
  · exact ⟨brackets, by rw [← hmode]⟩
  · rw [if_neg (hne '&' rfl), if_neg fun h => hne '>' rfl h.1, if_neg (hne ']' rfl),
      if_pos (by simp [isAllowed, hc])]
    exact ⟨0, rfl⟩

theorem exists_of_run_blanks {brackets : Nat} {blanks : List Char}
    (hmode : reader.mode = .text brackets) (hblanks : ∀ c ∈ blanks, isBlank c = true) :
    ∃ other, ∀ rest, reader.run plainReading (blanks ++ rest) =
      { reader with mode := .text other }.run plainReading rest := by
  induction blanks generalizing reader brackets with
  | nil => exact ⟨brackets, fun rest => by rw [← hmode]; rfl⟩
  | cons c blanks ih =>
    obtain ⟨next, hstep⟩ := exists_of_step_blank hmode (hblanks c (by simp))
    obtain ⟨other, hother⟩ := @ih { reader with mode := .text next } next rfl
      fun d hd => hblanks d (List.mem_cons_of_mem c hd)
    refine ⟨other, fun rest => ?_⟩
    simp only [List.cons_append, run, hstep]
    exact hother rest

theorem exists_of_closeElement_eq_ok {tag : QName}
    (h : reader.closeElement plainReading tag = .ok next) :
    reader.builder.closeTag tag = .ok next.builder ∧ next.mode = .text 0 ∧
      next.begun = reader.begun := by
  cases hlevel : reader.level with
  | zero =>
    obtain ⟨builder, -, h⟩ := Except.exists_of_bind_eq_ok h
    simp only [hlevel] at h
    cases h
  | succ level =>
    rw [closeElement_eq reader hlevel] at h
    obtain ⟨builder, hbuilder, rfl⟩ := Except.exists_of_map_eq_ok h
    exact ⟨hbuilder, rfl, rfl⟩

/-- Where characters are kept one after the other, a text is kept as a whole. -/
theorem run_kept {mode : List Char → Mode} {p : Char → Bool} {seen : List Char}
    (hstep : ∀ (reader : Reader) seen c, reader.mode = mode seen → p c = true →
      reader.step plainReading c = .ok { reader with mode := mode (c :: seen) })
    (hmode : reader.mode = mode seen) (htext : ∀ c ∈ text, p c = true) :
    reader.run plainReading (text ++ rest) =
      { reader with mode := mode (text.reverse ++ seen) }.run plainReading rest := by
  induction text generalizing reader seen with
  | nil =>
    cases reader
    cases hmode
    rfl
  | cons c text ih =>
    simp only [List.cons_append, run, hstep reader seen c hmode (htext c (by simp)),
      List.reverse_cons, List.append_assoc, List.nil_append]
    exact @ih { reader with mode := mode (c :: seen) } _ rfl
      fun d hd => htext d (List.mem_cons_of_mem c hd)

theorem run_endName {seen name : List Char} (hmode : reader.mode = .endName seen)
    (hname : ∀ c ∈ name, isNameChar c = true) :
    reader.run plainReading (name ++ rest) =
      { reader with mode := .endName (name.reverse ++ seen) }.run plainReading rest :=
  run_kept (fun _ _ _ hmode hc => by simp only [step, hmode, hc, if_true]; rfl) hmode hname

/-- The end of an end tag, with the blanks before it. -/
theorem run_endTagEnd {name : QName} {blanks : List Char} (hmode : reader.mode = .afterEndName name)
    (hblanks : ∀ c ∈ blanks, isBlank c = true) :
    reader.run plainReading (blanks ++ '>' :: rest) =
      reader.closeElement plainReading name >>= (run plainReading · rest) := by
  induction blanks with
  | nil =>
    simp only [List.nil_append, run, step, hmode]
    rfl
  | cons c blanks ih =>
    have hblank : reader.step plainReading c = .ok reader := by
      simp only [step, hmode, stepAfterEndName, hblanks c (by simp), if_true, goOn]
      rw [← hmode]
    simp only [List.cons_append, run, hblank]
    exact ih fun d hd => hblanks d (List.mem_cons_of_mem c hd)

/-- The name of an end tag, if something follows that does not belong to it. -/
theorem run_endTagName {name : List Char} (hmode : reader.mode = .endName name.reverse)
    (hwritten : QName.ofText name = .ok ⟨[], name⟩) (hc : isNameChar c = false) :
    reader.run plainReading (c :: rest) =
      { reader with mode := .afterEndName ⟨[], name⟩ }.run plainReading (c :: rest) := by
  -- The character is read as if the reader were already behind the name.
  have hstep : reader.step plainReading c =
      { reader with mode := .afterEndName ⟨[], name⟩ }.step plainReading c := by
    simp only [step, hmode, hc, Bool.false_eq_true, if_false, List.reverse_reverse, hwritten]
    rfl
  rw [run, hstep, run]

/-- An end tag in character data closes the innermost open element. -/
theorem exists_of_run_endTag {brackets : Nat} {blanks name trailing : List Char}
    (hmode : reader.mode = .text brackets) (hblanks : ∀ c ∈ blanks, isBlank c = true)
    (hname : ∀ c ∈ name, isNameChar c = true) (hwritten : QName.ofText name = .ok ⟨[], name⟩)
    (htrailing : ∀ c ∈ trailing, isBlank c = true)
    (h : reader.run plainReading (blanks ++ '<' :: '/' :: (name ++ (trailing ++ '>' :: rest))) =
      .ok last) :
    ∃ closed : Reader, reader.builder.closeTag ⟨[], name⟩ = .ok closed.builder ∧
      closed.mode = .text 0 ∧ closed.begun = reader.begun ∧
      closed.run plainReading rest = .ok last := by
  have hfollowing : ∃ c more, trailing ++ '>' :: rest = c :: more ∧ isNameChar c = false := by
    cases trailing with
    | nil => exact ⟨'>', rest, rfl, by decide⟩
    | cons c trailing =>
      refine ⟨c, _, rfl, Bool.eq_false_iff.mpr fun hc => ?_⟩
      exact Bool.noConfusion ((isBlank_of_isNameChar hc).symm.trans (htrailing c (by simp)))
  obtain ⟨c, more, hmore, hc⟩ := hfollowing
  obtain ⟨other, hother⟩ := exists_of_run_blanks hmode hblanks
  rw [hother] at h
  change { reader with mode := .endName [] }.run plainReading _ = _ at h
  rw [run_endName rfl hname, List.append_nil, hmore, run_endTagName rfl hwritten hc, ← hmore,
    run_endTagEnd rfl htrailing] at h
  obtain ⟨closed, hclose, hrun⟩ := Except.exists_of_bind_eq_ok h
  obtain ⟨hbuilder, hmode, hbegun⟩ := exists_of_closeElement_eq_ok hclose
  exact ⟨closed, hbuilder, hmode, hbegun, hrun⟩

end Reader

end MotifSearch.Xml
