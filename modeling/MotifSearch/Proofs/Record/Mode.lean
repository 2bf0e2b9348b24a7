import MotifSearch.Proofs.Pattern.SyntaxTree

/-!
# Modes of matching a record

A match of a pattern goes through the score record by record, and how far it has come within a
record is one of seven modes. The characters of the score alone tell which mode comes after which.
Every item of a note leads from one mode to another one, and so does all that is put together from
the items of notes: sequences, choices, groups and loops of them.

## Main definitions

* `Mode`, `Mode.step` — a mode, and the one after a character that can be read in it
* `Regex.Leads`, `Regex.ItemsLead` — an expression, a list of items, leads from mode to mode

## Main results

* `CharSet.step_of_after?` — the mode after a set is the one after each of its characters
* `Leads.unique` — the mode in which an expression ends is determined
* `ItemsLead.append`, `ItemsLead.of_append` — items that follow each other
-/

namespace MotifSearch

/-- How far a match has come within a record. -/
inductive Mode where
  /-- Another record may begin. -/
  | between
  /-- A record has begun, and nothing but marks has been read of it. -/
  | opening
  /-- The duration has begun. -/
  | inside
  /-- The pitch has begun. -/
  | sounding
  /-- What does not tell about the pitch any more has begun. -/
  | running
  /-- Nothing but the newline of the record is left. -/
  | closing
  /-- A record has just ended, so that records without notes may follow. -/
  | ended
  deriving DecidableEq

/-- A range of characters, one by one. -/
theorem ClassItem.mem_of_contains_range {low high c : Char} {text : List Char}
    (hall : ∀ n ≤ high.toNat, low.toNat ≤ n → Char.ofNat n ∈ text)
    (h : (range low high).contains c = true) : c ∈ text := by
  obtain ⟨hlow, hhigh⟩ : low ≤ c ∧ c ≤ high := by simpa [contains] using h
  have hmem := hall c.toNat hhigh hlow
  rwa [Char.ofNat_toNat] at hmem

namespace Record

/-- The rest of a record that goes on after the pitch, up to its newline. -/
def restBody : Regex :=
  .cat (.chars pitchEnds) lineItem

/-- The rest of a line and its end. -/
def lineRest : Regex :=
  .cat lineItem (.plain '\n')

/-- A record without notes, in the form in which it is matched. -/
def matchedControl : Regex :=
  .cat (.chars controls) lineRest

theorem contains_controls {c : Char} :
    controls.contains c = true ↔ c = '.' ∨ c = '!' ∨ c = '*' ∨ c = '=' := by
  simp [controls, CharSet.contains, ClassItem.contains]

theorem contains_marks {c : Char} :
    marks.contains c = true ↔ c = '&' ∨ c = '(' ∨ c = '\x7b' ∨ c = '[' ∨ c = '_' := by
  simp [marks, CharSet.contains, ClassItem.contains]

/-- What is neither a newline nor part of the spelling of a pitch ends a pitch. -/
theorem contains_pitchEnds {c : Char} (h : c ∉ "abcdefgABCDEFGn#-\n".toList) :
    pitchEnds.contains c = true := by
  rw [pitchEnds, CharSet.contains, Bool.not_eq_true', List.any_eq_false]
  intro item hitem hc
  apply h
  simp only [List.mem_cons, List.not_mem_nil, or_false] at hitem
  rcases hitem with rfl | rfl | rfl | rfl | rfl | rfl
  · exact ClassItem.mem_of_contains_range (by decide +kernel) hc
  · exact ClassItem.mem_of_contains_range (by decide +kernel) hc
  · obtain rfl : c = 'n' := beq_iff_eq.mp hc
    decide
  · obtain rfl : c = '#' := beq_iff_eq.mp hc
    decide
  · obtain rfl : c = '\n' := beq_iff_eq.mp hc
    decide
  · obtain rfl : c = '-' := beq_iff_eq.mp hc
    decide

theorem pitchEnds_of_mem_letters {c : Char} (hc : c ∈ letters) : pitchEnds.contains c = false := by
  have hall : letters.all (!pitchEnds.contains ·) = true := by decide
  simpa using List.all_eq_true.mp hall c hc

theorem not_duration_of_mem_letters {c : Char} (hc : c ∈ letters) :
    ¬ (c.isDigit = true ∨ c = '.') := by
  have hall : letters.all (fun c => !c.isDigit && c != '.') = true := by decide
  simpa using List.all_eq_true.mp hall c hc

theorem ne_newline_of_pitchEnds {c : Char} (h : pitchEnds.contains c = true) : c ≠ '\n' := by
  rintro rfl
  cases h

end Record

namespace Mode

/-- Whether what leads from or to a mode may be a choice, a group or a loop of any kind. A record is
closed in one way only: by its rest, if there is any, its newline, and the records without notes
after it. -/
def isOpen : Mode → Bool
  | between | opening | inside | sounding => true
  | running | closing | ended => false

/-- Whether the pitch of a record has not begun. -/
def beforePitch : Mode → Bool
  | between | opening | inside => true
  | sounding | running | closing | ended => false

/-- The mode after a character that opens a record. -/
def afterOpening? (c : Char) : Option Mode :=
  if Record.marks.contains c then some opening else if c.isDigit then some inside else none

/-- The mode after a character that may open another record. It does so with a line or with a
tab. -/
def afterBetween? (atLineStart : Bool) (c : Char) : Option Mode :=
  if c = '\t' then some opening else if atLineStart then afterOpening? c else none

/-- The mode after a character, if it can be read in a mode where a line begins or not, with or
without going on to other modes before. -/
def step (mode : Mode) (atLineStart : Bool) (c : Char) : Option Mode :=
  match mode with
  | between => afterBetween? atLineStart c
  | opening => afterOpening? c
  | inside =>
    if c.isDigit ∨ c = '.' then some inside else if c ∈ Record.letters then some sounding else none
  | sounding =>
    if c = '\n' then some ended
    else if Record.pitchEnds.contains c then some running
    else some sounding
  | running => if c = '\n' then some ended else some running
  | closing => if c = '\n' then some ended else none
  | ended => if Record.controls.contains c then some running else afterBetween? atLineStart c

variable {mode now : Mode} {atLineStart : Bool} {c : Char}

theorem eq_of_afterOpening? (h : afterOpening? c = some now) : now = opening ∨ now = inside := by
  rw [afterOpening?] at h
  split at h
  · exact Or.inl (Option.some.inj h).symm
  · split at h
    · exact Or.inr (Option.some.inj h).symm
    · cases h

theorem eq_of_afterBetween? (h : afterBetween? atLineStart c = some now) :
    now = opening ∨ now = inside := by
  rw [afterBetween?] at h
  split at h
  · exact Or.inl (Option.some.inj h).symm
  · split at h
    · exact eq_of_afterOpening? h
    · cases h

/-- Another record is not opened by a newline or by a control character. -/
theorem afterBetween?_eq_none (h : c = '\n' ∨ Record.controls.contains c = true) :
    afterBetween? atLineStart c = none := by
  rw [Record.contains_controls] at h
  rcases h with rfl | rfl | rfl | rfl | rfl <;> cases atLineStart <;> rfl

/-- A record begins with a tab if it does not begin with its line. -/
theorem step_between_false (h : c ≠ '\t') : between.step false c = none := by
  rw [step, afterBetween?, if_neg h]
  rfl

/-- Nothing but a newline closes a record. -/
theorem eq_of_step_closing (h : closing.step atLineStart c = some now) :
    c = '\n' ∧ now = ended := by
  rw [step] at h
  split at h
  · next hc => exact ⟨hc, (Option.some.inj h).symm⟩
  · cases h

/-- After a record, another one may begin at once. -/
theorem step_ended_of_step_between (h : between.step atLineStart c = some now) :
    ended.step atLineStart c = some now := by
  simp only [step] at h ⊢
  rw [if_neg, h]
  intro hcontrol
  rw [afterBetween?_eq_none (Or.inr hcontrol)] at h
  cases h

/-- A newline ends a record. No other character does, nor does one leave nothing but the newline. -/
theorem step_cases (h : mode.step atLineStart c = some now) :
    c = '\n' ∧ now = ended ∨ c ≠ '\n' ∧ now ≠ ended ∧ now ≠ closing := by
  have hopened : now = opening ∨ now = inside → c ≠ '\n' →
      c = '\n' ∧ now = ended ∨ c ≠ '\n' ∧ now ≠ ended ∧ now ≠ closing := by
    rintro (rfl | rfl) hc
    · exact Or.inr ⟨hc, by decide, by decide⟩
    · exact Or.inr ⟨hc, by decide, by decide⟩
  cases mode with
  | between =>
    refine hopened (eq_of_afterBetween? h) ?_
    rintro rfl
    rw [step, afterBetween?_eq_none (Or.inl rfl)] at h
    cases h
  | opening =>
    refine hopened (eq_of_afterOpening? h) ?_
    rintro rfl
    cases h
  | inside =>
    have hnewline : c ≠ '\n' := by
      rintro rfl
      cases h
    rw [step] at h
    split at h
    · exact hopened (Or.inr (Option.some.inj h).symm) hnewline
    · split at h
      · simp [hnewline, ← Option.some.inj h]
      · cases h
  | sounding =>
    rw [step] at h
    split at h
    · next hc => simp [hc, ← Option.some.inj h]
    · next hc => split at h <;> simp [hc, ← Option.some.inj h]
  | running =>
    rw [step] at h
    split at h <;> next hc => simp [hc, ← Option.some.inj h]
  | closing => exact Or.inl (eq_of_step_closing h)
  | ended =>
    rw [step] at h
    split at h
    · next hc =>
      rw [Record.contains_controls] at hc
      rcases hc with rfl | rfl | rfl | rfl <;> simp [← Option.some.inj h]
    · refine hopened (eq_of_afterBetween? h) ?_
      rintro rfl
      rw [afterBetween?_eq_none (Or.inl rfl)] at h
      cases h

/-- A record has ended after a newline, and only then. -/
theorem eq_ended_of_step (h : mode.step atLineStart c = some now) : now = ended ↔ c = '\n' := by
  rcases step_cases h with ⟨hc, hnow⟩ | ⟨hc, hnow, -⟩ <;> simp [hc, hnow]

theorem ne_closing_of_step (h : mode.step atLineStart c = some now) : now ≠ closing := by
  rcases step_cases h with ⟨-, rfl⟩ | ⟨-, -, hnow⟩
  · decide
  · exact hnow

/-- Before the pitch has begun, no newline is read. -/
theorem step_newline_of_beforePitch (h : mode.beforePitch = true) :
    mode.step false '\n' = none := by
  cases mode with
  | between | opening | inside => rfl
  | sounding | running | closing | ended => cases h

/-- Before the pitch has begun, what does not belong to a pitch does not begin it. -/
theorem eq_of_step_of_beforePitch (h : mode.beforePitch = true)
    (hc : Record.pitchEnds.contains c = true) (hstep : mode.step atLineStart c = some now) :
    now = opening ∨ now = inside := by
  cases mode with
  | between => exact eq_of_afterBetween? hstep
  | opening => exact eq_of_afterOpening? hstep
  | inside =>
    rw [step] at hstep
    split at hstep
    · exact Or.inr (Option.some.inj hstep).symm
    · split at hstep
      · next hletter =>
        rw [Record.pitchEnds_of_mem_letters hletter] at hc
        cases hc
      · cases hstep
  | sounding | running | closing | ended => cases h

end Mode

namespace CharSet

/-- Whether a set is one digit or all digits. -/
def isDuration : CharSet → Bool
  | single c => c.isDigit
  | set => set = Record.digits

/-- The mode after a character of a set, if one may be read. The pitch goes on with single
characters only. -/
def after? (set : CharSet) : Mode → Option Mode
  | .between => if set = single '\t' then some .opening else none
  | .opening =>
    if set = Record.marks then some .opening
    else if set.isDuration then some .inside
    else none
  | .inside =>
    if set.isDuration ∨ set = single '.' then some .inside
    else if set ∈ Record.letters.map single then some .sounding
    else none
  | .sounding =>
    match set with
    | single c => if c = '\n' ∨ Record.pitchEnds.contains c then none else some .sounding
    | _ => none
  | .closing => if set = single '\n' then some .ended else none
  | .running | .ended => none

variable {set : CharSet} {mode next : Mode} {c : Char}

theorem contains_digits : Record.digits.contains c = c.isDigit := by
  simp [Record.digits, contains, ClassItem.contains, Char.isDigit, Char.le_def,
    UInt32.le_iff_toNat_le]

theorem isDigit_of_isDuration (hset : set.isDuration = true) (hc : set.contains c = true) :
    c.isDigit = true := by
  have hdigits : set = Record.digits → c.isDigit = true := by
    rintro rfl
    rwa [← contains_digits]
  cases set with
  | single d =>
    obtain rfl : c = d := by simpa [contains] using hc
    exact hset
  | inLine => exact hdigits (by simpa [isDuration] using hset)
  | oneOf items => exact hdigits (by simpa [isDuration] using hset)
  | noneOf items => exact hdigits (by simpa [isDuration] using hset)

theorem controls_of_isDigit (h : c.isDigit = true) : Record.controls.contains c = false := by
  rw [← Bool.not_eq_true]
  intro hcontrol
  rcases Record.contains_controls.mp hcontrol with rfl | rfl | rfl | rfl <;> cases h

/-- No mark is a digit. -/
theorem marks_of_isDigit (h : c.isDigit = true) : Record.marks.contains c = false := by
  rw [← Bool.not_eq_true]
  intro hmark
  rcases Record.contains_marks.mp hmark with rfl | rfl | rfl | rfl | rfl <;> cases h

/-- The mode after a set is the one after each of its characters. -/
theorem step_of_after? (h : set.after? mode = some next) (hc : set.contains c = true)
    (atLineStart : Bool) : mode.step atLineStart c = some next := by
  have hsingle : ∀ {d}, set = single d → c = d := by
    rintro d rfl
    simpa [contains] using hc
  cases mode with
  | between =>
    simp only [after?] at h
    split at h
    · next heq =>
      rw [hsingle heq, ← h]
      rfl
    · cases h
  | opening =>
    simp only [after?] at h
    split at h
    · next heq =>
      subst heq
      rw [Mode.step, Mode.afterOpening?, if_pos hc, h]
    · split at h
      · next hset =>
        have hdigit := isDigit_of_isDuration hset hc
        rw [Mode.step, Mode.afterOpening?, marks_of_isDigit hdigit, if_pos hdigit, ← h]
        rfl
      · cases h
  | inside =>
    simp only [after?] at h
    split at h
    · next hset =>
      rw [Mode.step, if_pos (hset.imp (isDigit_of_isDuration · hc) hsingle), h]
    · split at h
      · next hset =>
        obtain ⟨letter, hletter, heq⟩ := List.mem_map.mp hset
        obtain rfl := hsingle heq.symm
        rw [Mode.step, if_neg (Record.not_duration_of_mem_letters hletter), if_pos hletter, h]
      · cases h
  | sounding =>
    simp only [after?] at h
    split at h
    · next d =>
      obtain rfl := hsingle rfl
      split at h
      · cases h
      · next hgoes =>
        obtain ⟨hnewline, hend⟩ := not_or.mp hgoes
        rw [Mode.step, if_neg hnewline, if_neg hend, h]
    · cases h
  | closing =>
    simp only [after?] at h
    split at h
    · next heq =>
      rw [hsingle heq, ← h]
      rfl
    · cases h
  | running | ended => cases h

/-- What ends a pitch is read by no other item. -/
theorem after?_pitchEnds (mode : Mode) : after? Record.pitchEnds mode = none := by
  cases mode <;> decide

/-- What goes on with the pitch neither ends it nor ends the line. -/
theorem not_contains_of_after?_sounding (h : set.after? .sounding = some next) :
    next = .sounding ∧
      ∀ c, c = '\n' ∨ Record.pitchEnds.contains c = true → set.contains c = false := by
  simp only [after?] at h
  split at h
  · next d =>
    split at h
    · cases h
    · next hgoes =>
      refine ⟨(Option.some.inj h).symm, fun c hc => ?_⟩
      rw [contains, beq_eq_false_iff_ne]
      rintro rfl
      exact hgoes hc
  · cases h

end CharSet

namespace Regex

/-- An expression leads from one mode to another one. What is not open is one of a few items. In
particular, right after a record nothing but a loop over records without notes may stand, each of
which `control` matches. -/
inductive Leads (control : Regex) : Regex → Mode → Mode → Prop
  | empty {mode : Mode} (hmode : mode.isOpen = true) : Leads control empty mode mode
  | chars {set : CharSet} {mode next : Mode} (h : set.after? mode = some next) :
      Leads control (chars set) mode next
  | lineStart : Leads control lineStart .between .opening
  | rest {body : Regex} (hbody : body = Record.restBody ∨ body = group false Record.restBody) :
      Leads control (loop .optional true body) .sounding .closing
  | line : Leads control Record.lineItem .running .closing
  | skip : Leads control (loop .zeroOrMore false control) .ended .between
  | group {captures : Bool} {body : Regex} {mode next : Mode} (hmode : mode.isOpen = true)
      (hnext : next.isOpen = true) (hbody : Leads control body mode next) :
      Leads control (group captures body) mode next
  | optional {greedy : Bool} {body : Regex} {mode : Mode} (hmode : mode.isOpen = true)
      (hbody : Leads control body mode mode) : Leads control (loop .optional greedy body) mode mode
  | oneOrMore {greedy : Bool} {body : Regex} {mode next : Mode} (hmode : mode.isOpen = true)
      (hnext : next.isOpen = true) (hfirst : Leads control body mode next)
      (hagain : Leads control body next next) :
      Leads control (loop .oneOrMore greedy body) mode next
  | zeroOrMore {greedy : Bool} {body : Regex} {mode : Mode} (hmode : mode.isOpen = true)
      (hbody : Leads control body mode mode) :
      Leads control (loop .zeroOrMore greedy body) mode mode
  | cat {first rest : Regex} {mode middle next : Mode} (hcat : first.isCat = false)
      (hfirst : Leads control first mode middle) (hrest : Leads control rest middle next) :
      Leads control (cat first rest) mode next
  | alt {first rest : Regex} {mode next : Mode} (hmode : mode.isOpen = true)
      (hnext : next.isOpen = true) (hfirst : Leads control first mode next)
      (hrest : Leads control rest mode next) : Leads control (alt first rest) mode next

/-- Items one after the other lead from one mode to another one. -/
def ItemsLead (control : Regex) : List Regex → Mode → Mode → Prop
  | [], mode, next => mode = next
  | item :: items, mode, next =>
    ∃ middle, Leads control item mode middle ∧ ItemsLead control items middle next

variable {control regex : Regex} {mode middle next other : Mode} {first second : List Regex}

/-- The rest of a record stands nowhere but in its optional loop, since its first character is read
nowhere else. -/
theorem not_leads_restBody {body : Regex}
    (hbody : body = Record.restBody ∨ body = group false Record.restBody) :
    ¬ Leads control body mode next := by
  have hrest : ∀ next, ¬ Leads control Record.restBody mode next := by
    intro next h
    cases h with
    | cat _ hfirst =>
      cases hfirst with
      | chars hset => cases (CharSet.after?_pitchEnds mode).symm.trans hset
  rcases hbody with rfl | rfl
  · exact hrest next
  · intro h
    cases h with
    | group _ _ h => exact hrest next h

/-- The mode in which an expression ends is determined by the one in which it begins. -/
theorem Leads.unique (h : Leads control regex mode next) (hother : Leads control regex mode other) :
    next = other := by
  -- Two rules apply to some loops, and the mode before the loop tells which of them does.
  induction h generalizing other with
  | empty | lineStart =>
    cases hother
    rfl
  | chars h =>
    cases hother with
    | chars hother => exact Option.some.inj (h.symm.trans hother)
  | rest hbody =>
    cases hother with
    | rest => rfl
    | optional _ hother => exact absurd hother (not_leads_restBody hbody)
  | line =>
    cases hother with
    | line => rfl
    | zeroOrMore hmode => cases hmode
  | skip =>
    cases hother with
    | skip => rfl
    | zeroOrMore hmode => cases hmode
  | group _ _ _ ih =>
    cases hother with
    | group _ _ hbody => exact ih hbody
  | optional _ hbody =>
    cases hother with
    | rest hother => exact absurd hbody (not_leads_restBody hother)
    | optional => rfl
  | oneOrMore _ _ _ _ ih =>
    cases hother with
    | oneOrMore _ _ hfirst _ => exact ih hfirst
  | zeroOrMore hmode =>
    cases hother with
    | line => cases hmode
    | skip => cases hmode
    | zeroOrMore => rfl
  | cat _ _ _ ihfirst ihrest =>
    cases hother with
    | cat _ hfirst hrest =>
      obtain rfl := ihfirst hfirst
      exact ihrest hrest
  | alt _ _ _ _ ih =>
    cases hother with
    | alt _ _ hfirst _ => exact ih hfirst

theorem ItemsLead.append (hfirst : ItemsLead control first mode middle)
    (hsecond : ItemsLead control second middle next) :
    ItemsLead control (first ++ second) mode next := by
  induction first generalizing mode with
  | nil =>
    obtain rfl : mode = middle := hfirst
    exact hsecond
  | cons item first ih =>
    obtain ⟨after, hitem, hfirst⟩ := hfirst
    exact ⟨after, hitem, ih hfirst⟩

theorem ItemsLead.of_append (h : ItemsLead control (first ++ second) mode next) :
    ∃ middle, ItemsLead control first mode middle ∧ ItemsLead control second middle next := by
  induction first generalizing mode with
  | nil => exact ⟨mode, rfl, h⟩
  | cons item first ih =>
    obtain ⟨after, hitem, h⟩ := h
    obtain ⟨middle, hfirst, hsecond⟩ := ih h
    exact ⟨middle, ⟨after, hitem, hfirst⟩, hsecond⟩

theorem ItemsLead.singleton (h : Leads control regex mode next) :
    ItemsLead control [regex] mode next :=
  ⟨next, h, rfl⟩

end Regex

end MotifSearch
