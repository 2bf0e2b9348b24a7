import MotifSearch.Proofs.Pattern.Preference

/-!
# Matches carried over to other lines

What a pattern matches at the beginning of some lines it also matches at the beginning of other
lines, if each of these begins the notes that its counterpart begins, and if the records without
notes among the lines after the first one have such records as counterparts.

## Main definitions

* `Record.CarriesTo` — a line that begins the notes that another one begins
* `Record.Carries` — lines, each paired with another one that a match can be carried over to
* `Meaning.Transfers` — a meaning takes whole lines, and it is carried over to others

## Main results

* `transfers_preferring` — what a pattern prefers to the empty match is carried over
-/

namespace MotifSearch

open Record

/-- A line begins all notes that another one begins, and it is without notes if the other one is. -/
structure Record.CarriesTo (line other : List Char) : Prop where
  newline : '\n' ∉ other
  begins : ∀ note, Begins note true line → Begins note true other
  control : isControl line = true → isControl other = true

/-- Lines that begin where a line begins, each paired with another one, to which a match can be
carried over. The first one of the other lines may begin further to the right. -/
structure Record.Carries (atLineStart : Bool) (pairs : List (List Char × List Char)) : Prop where
  head : ∀ pair ∈ pairs.head?, '\n' ∉ pair.2 ∧
    ∀ note, Begins note true pair.1 → Begins note atLineStart pair.2
  tail : ∀ pair ∈ pairs.tail, CarriesTo pair.1 pair.2

namespace Record.Carries

variable {atLineStart : Bool} {line other : List Char}
variable {pairs left right : List (List Char × List Char)}

theorem of_forall (h : ∀ pair ∈ pairs, CarriesTo pair.1 pair.2) : Carries true pairs where
  head pair hpair :=
    have hcarries := h pair (List.mem_of_mem_head? hpair)
    ⟨hcarries.newline, hcarries.begins⟩
  tail pair hpair := h pair (List.mem_of_mem_tail hpair)

theorem singleton (hnewline : '\n' ∉ other)
    (hbegins : ∀ note, Begins note true line → Begins note atLineStart other) :
    Carries atLineStart [(line, other)] where
  head pair hpair := by
    obtain rfl : (line, other) = pair := Option.some.inj hpair
    exact ⟨hnewline, hbegins⟩
  tail pair hpair := absurd hpair List.not_mem_nil

theorem of_append_left (h : Carries atLineStart (left ++ right)) : Carries atLineStart left := by
  cases left with
  | nil => exact ⟨by simp, by simp⟩
  | cons pair left =>
    exact ⟨h.head, fun other hother => h.tail other (List.mem_append_left right hother)⟩

theorem of_append_right (h : Carries atLineStart (left ++ right)) :
    Carries (lineStartAfter atLineStart (terminatedText (left.map Prod.snd))) right := by
  cases left with
  | nil => exact h
  | cons pair left =>
    -- What comes after the first pair begins with a line.
    have hstart : lineStartAfter atLineStart (terminatedText ((pair :: left).map Prod.snd)) =
        true := by simp
    rw [hstart]
    exact of_forall fun other hother => h.tail other (List.mem_append_right left hother)

end Record.Carries

/-- A meaning takes whole lines where a line begins, and it is carried over to other lines. -/
def Meaning.Transfers (meaning : Meaning) : Prop :=
  ∀ word after, meaning true word after → ∃ lines, word = terminatedText lines ∧
    (∀ line ∈ lines, '\n' ∉ line) ∧ ∀ pairs atLineStart other, pairs.map Prod.fst = lines →
      Carries atLineStart pairs → meaning atLineStart (terminatedText (pairs.map Prod.snd)) other

namespace Meaning.Transfers

variable {first second body : Meaning}

theorem nothing : Transfers .nothing := by
  rintro word after rfl
  refine ⟨[], rfl, by simp, fun pairs atLineStart other hpairs _ => ?_⟩
  obtain rfl := List.map_eq_nil_iff.mp hpairs
  rfl

theorem followedBy (hfirst : Transfers first) (hsecond : Transfers second) :
    Transfers (first.followedBy second) := by
  rintro _ after ⟨word, others, rfl, hword, hothers⟩
  obtain ⟨lines, rfl, hlines, htransfer⟩ := hfirst _ _ hword
  rw [lineStartAfter_terminatedText] at hothers
  obtain ⟨more, rfl, hmore, htransferMore⟩ := hsecond _ _ hothers
  refine ⟨lines ++ more, (terminatedText_append lines more).symm,
    List.forall_mem_append.mpr ⟨hlines, hmore⟩, fun pairs atLineStart other hpairs hcarries => ?_⟩
  obtain ⟨left, right, rfl, hleft, hright⟩ := List.map_eq_append_iff.mp hpairs
  rw [List.map_append, terminatedText_append]
  exact ⟨_, _, rfl, htransfer left atLineStart _ hleft hcarries.of_append_left,
    htransferMore right _ other hright hcarries.of_append_right⟩

theorem either (hfirst : Transfers first) (hsecond : Transfers second) :
    Transfers (first.either second) := by
  rintro word after (h | h)
  · obtain ⟨lines, hword, hlines, htransfer⟩ := hfirst word after h
    exact ⟨lines, hword, hlines, fun pairs atLineStart other hpairs hcarries =>
      Or.inl (htransfer pairs atLineStart other hpairs hcarries)⟩
  · obtain ⟨lines, hword, hlines, htransfer⟩ := hsecond word after h
    exact ⟨lines, hword, hlines, fun pairs atLineStart other hpairs hcarries =>
      Or.inr (htransfer pairs atLineStart other hpairs hcarries)⟩

theorem iterated (hbody : Transfers body) : Transfers (Iterated body) := by
  intro word after h
  generalize hstart : true = atLineStart at h
  induction h with
  | @once atLineStart word after h =>
    subst hstart
    obtain ⟨lines, hword, hlines, htransfer⟩ := hbody word after h
    exact ⟨lines, hword, hlines, fun pairs atLineStart other hpairs hcarries =>
      .once (htransfer pairs atLineStart other hpairs hcarries)⟩
  | @more atLineStart left right after hleft hright ih =>
    subst hstart
    obtain ⟨lines, rfl, hlines, htransfer⟩ := hbody _ _ hleft
    obtain ⟨more, rfl, hmore, htransferMore⟩ := ih (lineStartAfter_terminatedText lines).symm
    refine ⟨lines ++ more, (terminatedText_append lines more).symm,
      List.forall_mem_append.mpr ⟨hlines, hmore⟩, fun pairs atLineStart other hpairs hcarries => ?_⟩
    obtain ⟨left, right, rfl, hleft, hright⟩ := List.map_eq_append_iff.mp hpairs
    rw [List.map_append, terminatedText_append]
    exact .more (htransfer left atLineStart _ hleft hcarries.of_append_left)
      (htransferMore right _ other hright hcarries.of_append_right)

/-- A note is carried over: its record to another one, and the records without notes after it. -/
theorem note (note : NotePattern) : Transfers note.meaning := by
  intro word after h
  obtain ⟨part, controls, rfl, hpart, hbegins, hcontrols⟩ := note_iff.mp h
  refine ⟨part :: controls, rfl, List.forall_mem_cons.mpr
    ⟨hpart, fun line hline => (hcontrols line hline).2⟩,
    fun pairs atLineStart other hpairs hcarries => ?_⟩
  obtain ⟨pair, pairs, rfl, rfl, rfl⟩ := List.map_eq_cons_iff.mp hpairs
  obtain ⟨hnewline, hhead⟩ := hcarries.head pair rfl
  refine note_iff.mpr ⟨pair.2, pairs.map Prod.snd, rfl, hnewline, hhead note hbegins,
    fun line hline => ?_⟩
  obtain ⟨next, hnext, rfl⟩ := List.mem_map.mp hline
  have hnextCarries := hcarries.tail next hnext
  have hcontrol := (hcontrols next.1 (List.mem_map_of_mem hnext)).1
  exact ⟨hnextCarries.control hcontrol, hnextCarries.newline⟩

theorem compositional : Meaning.Compositional Transfers :=
  ⟨nothing, fun _ _ h => h.elim, followedBy, either, iterated⟩

end Meaning.Transfers

/-- What a pattern prefers to the empty match is carried over to other lines. -/
theorem Pattern.transfers_preferring (pattern : Pattern) :
    pattern.syntaxTree.preferring.Transfers :=
  pattern.holds_preferring Meaning.Transfers.compositional Meaning.Transfers.note

end MotifSearch
