import MotifSearch.Regex.Basic

/-!
# Meanings

A meaning says which words can be matched in which surroundings: whether a line begins before the
word, and what follows it. Expressions have meanings, and so have patterns; both are put together
from the meanings of their parts by the same operations. No word is preferred to another one here.

## Main definitions

* `lineStartAfter` — whether a line begins after a word
* `Meaning`, with `Meaning.nothing`, `Meaning.followedBy`, `Meaning.either`, `Meaning.Iterated` and
  `Meaning.repeated` — meanings and the operations on them
* `Meaning.sequence`, `Meaning.choice` — the operations on lists of meanings
* `Regex.meaning` — the words that an expression matches

## Main results

* `followedBy_assoc`, `followedBy_either` — sequences can be regrouped, choices multiplied out
* `Iterated.cons_inv` — the first iteration of a loop that reads something
* `meaning_concat`, `meaning_alternatives` — expressions of lists mean lists of meanings
-/

namespace MotifSearch

/-- Whether a line begins after a word, given whether one begins before it. -/
def lineStartAfter (atLineStart : Bool) : List Char → Bool
  | [] => atLineStart
  | c :: word => lineStartAfter (c == '\n') word

@[simp] theorem lineStartAfter_nil (atLineStart : Bool) :
    lineStartAfter atLineStart [] = atLineStart := rfl

@[simp] theorem lineStartAfter_cons (atLineStart : Bool) (c : Char) (word : List Char) :
    lineStartAfter atLineStart (c :: word) = lineStartAfter (c == '\n') word := rfl

@[simp] theorem lineStartAfter_append (atLineStart : Bool) (first second : List Char) :
    lineStartAfter atLineStart (first ++ second) =
      lineStartAfter (lineStartAfter atLineStart first) second := by
  induction first generalizing atLineStart with
  | nil => rfl
  | cons c first ih => exact ih (c == '\n')

/-- No line begins after characters of a line. -/
theorem eq_nil_of_lineStartAfter {atLineStart : Bool} {word : List Char}
    (h : lineStartAfter atLineStart word = true) (hline : '\n' ∉ word) :
    atLineStart = true ∧ word = [] := by
  induction word generalizing atLineStart with
  | nil => exact ⟨h, rfl⟩
  | cons c word ih =>
    rw [List.mem_cons, not_or] at hline
    exact absurd (ih h hline.2).1 (by simpa using Ne.symm hline.1)

/-- What something can match: whether a line begins before the word, the word itself, and what
follows it. -/
def Meaning := Bool → List Char → List Char → Prop

namespace Meaning

@[ext] theorem ext {first second : Meaning}
    (h : ∀ atLineStart word after, first atLineStart word after ↔ second atLineStart word after) :
    first = second := by
  funext atLineStart word after
  exact propext (h atLineStart word after)

/-- The empty word, anywhere. -/
def nothing : Meaning := fun _ word _ => word = []

/-- No word at all. -/
def never : Meaning := fun _ _ _ => False

/-- A word of one meaning and then a word of another one. -/
def followedBy (first second : Meaning) : Meaning := fun atLineStart word after =>
  ∃ left right, word = left ++ right ∧ first atLineStart left (right ++ after) ∧
    second (lineStartAfter atLineStart left) right after

/-- A word of one of two meanings. -/
def either (first second : Meaning) : Meaning := fun atLineStart word after =>
  first atLineStart word after ∨ second atLineStart word after

/-- One or more words of the same meaning, one after the other. -/
inductive Iterated (body : Meaning) : Bool → List Char → List Char → Prop
  | once {atLineStart : Bool} {word after : List Char} (h : body atLineStart word after) :
      Iterated body atLineStart word after
  | more {atLineStart : Bool} {left right after : List Char}
      (hleft : body atLineStart left (right ++ after))
      (hright : Iterated body (lineStartAfter atLineStart left) right after) :
      Iterated body atLineStart (left ++ right) after

/-- A word of the same meaning as often as a loop asks for. -/
def repeated (times : Repeat) (body : Meaning) : Meaning :=
  match times with
  | .optional => nothing.either body
  | .oneOrMore => Iterated body
  | .zeroOrMore => nothing.either (Iterated body)

/-- Words of several meanings, one after the other. -/
def sequence : List Meaning → Meaning
  | [] => nothing
  | first :: rest => first.followedBy (sequence rest)

/-- A word of one of several meanings. -/
def choice : List Meaning → Meaning
  | [] => never
  | first :: rest => first.either (choice rest)

@[simp] theorem sequence_nil : sequence [] = nothing := rfl

@[simp] theorem sequence_cons (first : Meaning) (rest : List Meaning) :
    sequence (first :: rest) = first.followedBy (sequence rest) := rfl

@[simp] theorem choice_nil : choice [] = never := rfl

@[simp] theorem choice_cons (first : Meaning) (rest : List Meaning) :
    choice (first :: rest) = first.either (choice rest) := rfl

@[simp] theorem nothing_followedBy (meaning : Meaning) : nothing.followedBy meaning = meaning := by
  ext atLineStart word after
  constructor
  · rintro ⟨left, right, rfl, rfl, h⟩
    exact h
  · intro h
    exact ⟨[], word, rfl, rfl, h⟩

@[simp] theorem followedBy_nothing (meaning : Meaning) : meaning.followedBy nothing = meaning := by
  ext atLineStart word after
  constructor
  · rintro ⟨left, right, rfl, h, rfl⟩
    simpa using h
  · intro h
    exact ⟨word, [], by simp, by simpa using h, rfl⟩

/-- Two meanings, one after the other, match the empty word where each of them does. -/
theorem followedBy_nil {first second : Meaning} {atLineStart : Bool} {after : List Char} :
    first.followedBy second atLineStart [] after ↔
      first atLineStart [] after ∧ second atLineStart [] after := by
  constructor
  · rintro ⟨left, right, hword, hfirst, hsecond⟩
    obtain ⟨rfl, rfl⟩ := List.append_eq_nil_iff.mp hword.symm
    exact ⟨hfirst, hsecond⟩
  · rintro ⟨hfirst, hsecond⟩
    exact ⟨[], [], rfl, hfirst, hsecond⟩

/-- The first character of a word is read by the second one of two meanings, if the first one reads
nothing, or else by the first one. -/
theorem followedBy_cons {first second : Meaning} {atLineStart : Bool} {c : Char}
    {word after : List Char} :
    first.followedBy second atLineStart (c :: word) after ↔
      (first atLineStart [] (c :: word ++ after) ∧ second atLineStart (c :: word) after) ∨
        ∃ here there, word = here ++ there ∧ first atLineStart (c :: here) (there ++ after) ∧
          second (lineStartAfter (c == '\n') here) there after := by
  constructor
  · rintro ⟨left, right, hword, hfirst, hsecond⟩
    cases left with
    | nil =>
      obtain rfl : c :: word = right := hword
      exact Or.inl ⟨hfirst, hsecond⟩
    | cons d here =>
      obtain ⟨rfl, rfl⟩ := List.cons.inj hword
      exact Or.inr ⟨here, right, rfl, hfirst, hsecond⟩
  · rintro (⟨hfirst, hsecond⟩ | ⟨here, there, rfl, hfirst, hsecond⟩)
    · exact ⟨[], c :: word, rfl, hfirst, hsecond⟩
    · exact ⟨c :: here, there, rfl, hfirst, hsecond⟩

theorem followedBy_assoc (first second third : Meaning) :
    (first.followedBy second).followedBy third = first.followedBy (second.followedBy third) := by
  ext atLineStart word after
  constructor
  · rintro ⟨_, right, rfl, ⟨left, middle, rfl, hfirst, hsecond⟩, hthird⟩
    rw [lineStartAfter_append] at hthird
    exact ⟨left, middle ++ right, by simp, by simpa using hfirst,
      middle, right, rfl, hsecond, hthird⟩
  · rintro ⟨left, _, rfl, hfirst, middle, right, rfl, hsecond, hthird⟩
    rw [List.append_assoc] at hfirst
    exact ⟨left ++ middle, right, by simp, ⟨left, middle, rfl, hfirst, hsecond⟩,
      by simpa using hthird⟩

@[simp] theorem never_followedBy (meaning : Meaning) : never.followedBy meaning = never := by
  ext atLineStart word after
  constructor
  · rintro ⟨_, _, _, h, _⟩
    exact h
  · intro h
    exact h.elim

@[simp] theorem followedBy_never (meaning : Meaning) : meaning.followedBy never = never := by
  ext atLineStart word after
  constructor
  · rintro ⟨_, _, _, _, h⟩
    exact h
  · intro h
    exact h.elim

@[simp] theorem never_either (meaning : Meaning) : never.either meaning = meaning := by
  ext atLineStart word after
  simp [either, never]

@[simp] theorem either_never (meaning : Meaning) : meaning.either never = meaning := by
  ext atLineStart word after
  simp [either, never]

theorem either_assoc (first second third : Meaning) :
    (first.either second).either third = first.either (second.either third) := by
  ext atLineStart word after
  exact or_assoc

theorem followedBy_either (first second third : Meaning) :
    first.followedBy (second.either third) =
      (first.followedBy second).either (first.followedBy third) := by
  ext atLineStart word after
  constructor
  · rintro ⟨left, right, rfl, hfirst, hsecond | hthird⟩
    · exact Or.inl ⟨left, right, rfl, hfirst, hsecond⟩
    · exact Or.inr ⟨left, right, rfl, hfirst, hthird⟩
  · rintro (⟨left, right, rfl, hfirst, hsecond⟩ | ⟨left, right, rfl, hfirst, hthird⟩)
    · exact ⟨left, right, rfl, hfirst, Or.inl hsecond⟩
    · exact ⟨left, right, rfl, hfirst, Or.inr hthird⟩

theorem sequence_append (first second : List Meaning) :
    sequence (first ++ second) = (sequence first).followedBy (sequence second) := by
  induction first with
  | nil => simp
  | cons meaning first ih => simp [ih, followedBy_assoc]

theorem either_followedBy (first second third : Meaning) :
    (first.either second).followedBy third =
      (first.followedBy third).either (second.followedBy third) := by
  ext atLineStart word after
  constructor
  · rintro ⟨left, right, rfl, hfirst | hsecond, hthird⟩
    · exact Or.inl ⟨left, right, rfl, hfirst, hthird⟩
    · exact Or.inr ⟨left, right, rfl, hsecond, hthird⟩
  · rintro (⟨left, right, rfl, hfirst, hthird⟩ | ⟨left, right, rfl, hsecond, hthird⟩)
    · exact ⟨left, right, rfl, Or.inl hfirst, hthird⟩
    · exact ⟨left, right, rfl, Or.inr hsecond, hthird⟩

theorem choice_append (first second : List Meaning) :
    choice (first ++ second) = (choice first).either (choice second) := by
  induction first with
  | nil => simp
  | cons meaning first ih => simp [ih, either_assoc]

/-- The first iteration that reads something, and the iterations after it. -/
theorem Iterated.cons_inv {body : Meaning} {atLineStart : Bool} {c : Char} {word after : List Char}
    (h : Iterated body atLineStart (c :: word) after) :
    ∃ left right, word = left ++ right ∧ body atLineStart (c :: left) (right ++ after) ∧
      repeated .zeroOrMore body (lineStartAfter (c == '\n') left) right after := by
  generalize hwhole : c :: word = whole at h
  induction h with
  | once h =>
    subst hwhole
    exact ⟨word, [], by simp, by simpa using h, Or.inl rfl⟩
  | @more atLineStart left right after hleft hright ih =>
    cases left with
    | nil => exact ih hwhole
    | cons d left =>
      obtain ⟨rfl, rfl⟩ := List.cons.inj hwhole
      exact ⟨left, right, rfl, hleft, Or.inr hright⟩

/-- The first iteration of iterations that read nothing. -/
theorem Iterated.nil_inv {body : Meaning} {atLineStart : Bool} {after : List Char}
    (h : Iterated body atLineStart [] after) : body atLineStart [] after := by
  generalize hwhole : [] = whole at h
  induction h with
  | once h => exact h
  | @more atLineStart left right after hleft hright ih =>
    obtain ⟨rfl, rfl⟩ := List.append_eq_nil_iff.mp hwhole.symm
    exact hleft

/-- One iteration, and then any number of them. -/
theorem Iterated.of_followedBy {body : Meaning} {atLineStart : Bool} {word after : List Char}
    (h : (body.followedBy (repeated .zeroOrMore body)) atLineStart word after) :
    Iterated body atLineStart word after := by
  obtain ⟨left, right, rfl, hleft, rfl | hright⟩ := h
  · rw [List.append_nil]
    exact .once hleft
  · exact .more hleft hright

/-- A loop with at least one iteration is one iteration and then any number of them. -/
theorem iterated_eq (body : Meaning) :
    Iterated body = body.followedBy (repeated .zeroOrMore body) := by
  ext atLineStart word after
  constructor
  · intro h
    cases h with
    | once h => exact ⟨word, [], by simp, by simpa using h, Or.inl rfl⟩
    | more hleft hright => exact ⟨_, _, rfl, hleft, Or.inr hright⟩
  · exact Iterated.of_followedBy

end Meaning

namespace Regex

/-- The words that an expression matches. -/
def meaning : Regex → Meaning
  | empty => .nothing
  | chars set => fun _ word _ => ∃ c, set.contains c = true ∧ word = [c]
  | lineStart => fun atLineStart word _ => atLineStart = true ∧ word = []
  | notAhead set => fun _ word after => after.head?.any set.contains = false ∧ word = []
  | group _ body => body.meaning
  | loop times _ body => body.meaning.repeated times
  | cat first rest => first.meaning.followedBy rest.meaning
  | alt first rest => first.meaning.either rest.meaning

theorem meaning_concat (items : List Regex) :
    (concat items).meaning = .sequence (items.map meaning) := by
  induction items with
  | nil => rfl
  | cons item items ih =>
    cases items with
    | nil => simp
    | cons next items =>
      rw [concat_cons_cons, meaning, ih]
      rfl

theorem meaning_alternatives {branches : List Regex} (h : branches ≠ []) :
    (alternatives branches).meaning = .choice (branches.map meaning) := by
  induction branches with
  | nil => exact absurd rfl h
  | cons branch branches ih =>
    cases branches with
    | nil => simp
    | cons next branches =>
      rw [alternatives_cons_cons, meaning, ih (List.cons_ne_nil _ _)]
      rfl

end Regex

end MotifSearch
