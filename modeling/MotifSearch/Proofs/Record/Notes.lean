import MotifSearch.Proofs.Record.Factored

/-!
# Patterns lead from record to record

Every note leads from between two records to between two records, whatever is asked of it, and so
every pattern does. The expression of a pattern therefore keeps to the modes of a record, in the
form in which it is written and in the form in which it is matched.

## Main results

* `NotePattern.branchLeads_items` — the items of a note lead from record to record
* `Pattern.leads_syntaxTree`, `Pattern.leads_factored` — and so does the tree of every pattern
-/

namespace MotifSearch

open Regex (Leads BranchLeads BranchesLead)
open Record (controlItem)

namespace Regex

variable {mode : Mode} {text : List Char}

/-- A text of which each character leads from a mode back to it. -/
theorem branchLeads_plain (h : ∀ c ∈ text, Leads controlItem (plain c) mode mode) :
    BranchLeads controlItem (text.map plain) mode mode := by
  induction text with
  | nil => exact .nil _
  | cons c text ih =>
    exact .cons rfl (h c List.mem_cons_self) (ih fun d hd => h d (List.mem_cons_of_mem c hd))

end Regex

open Regex

namespace Record

variable {c : Char} {text : List Char}

theorem branchLeads_start :
    BranchLeads controlItem [startItem, marksItem] .between .opening := by
  have hstart : Leads controlItem startItem .between .opening :=
    .group rfl rfl (.alt rfl rfl .lineStart (.chars rfl))
  exact .cons rfl hstart (.singleton rfl (.zeroOrMore rfl (.chars rfl)))

theorem branchLeads_anyDuration :
    BranchLeads controlItem [digitsItem, dotsItem] .opening .inside :=
  .cons rfl (.oneOrMore rfl rfl (.chars rfl) (.chars rfl))
    (.singleton rfl (.zeroOrMore rfl (.chars rfl)))

/-- A text of digits and dots that begins with a digit is a duration. -/
theorem branchLeads_duration (hdigit : c.isDigit = true)
    (h : ∀ d ∈ text, d.isDigit = true ∨ d = '.') :
    BranchLeads controlItem ((c :: text).map plain) .opening .inside := by
  have hmarks : CharSet.single c ≠ marks := by simp [marks]
  have hfirst : Leads controlItem (plain c) .opening .inside :=
    .chars (by simp [CharSet.after?, CharSet.isDuration, hmarks, hdigit])
  refine .cons rfl hfirst (branchLeads_plain fun d hd => .chars ?_)
  rw [CharSet.after?, if_pos]
  exact (h d hd).imp_right (congrArg CharSet.single)

theorem leads_letter (hc : c ∈ letters) : Leads controlItem (plain c) .inside .sounding := by
  have hlong : ¬ ((CharSet.single c).isDuration = true ∨ CharSet.single c = .single '.') := by
    simpa [CharSet.isDuration] using not_duration_of_mem_letters hc
  exact .chars (by rw [CharSet.after?, if_neg hlong, if_pos (List.mem_map_of_mem hc)])

/-- What the rest of a record does not begin with goes on with the pitch. -/
theorem leads_sounding (hc : c ≠ '\n' ∧ pitchEnds.contains c = false) :
    Leads controlItem (plain c) .sounding .sounding := by
  apply Leads.chars
  simp [CharSet.after?, hc]

theorem mem_letters_of_mem_kernLetters {letter : PitchLetter} {octave : Octave}
    (h : c ∈ kernLetters letter octave) : c ∈ letters := by
  unfold kernLetters at h
  split at h
  · rw [List.eq_of_mem_replicate h]
    cases letter <;> decide
  · rw [List.eq_of_mem_replicate h]
    cases letter <;> decide

theorem sounding_of_mem_letters (hc : c ∈ letters) : c ≠ '\n' ∧ pitchEnds.contains c = false := by
  refine ⟨?_, pitchEnds_of_mem_letters hc⟩
  rintro rfl
  revert hc
  decide

theorem leads_lettersItem : Leads controlItem lettersItem .inside .sounding := by
  refine .group rfl rfl (leads_alternatives (by simp [letters]) rfl rfl ?_)
  intro regex hregex
  obtain ⟨letter, hletter, rfl⟩ := List.mem_map.mp hregex
  exact .oneOrMore rfl rfl (leads_letter hletter) (leads_sounding (sounding_of_mem_letters hletter))

theorem leads_accidentalItem : Leads controlItem accidentalItem .sounding .sounding :=
  .group rfl rfl (.alt rfl rfl (.zeroOrMore rfl (leads_sounding (by decide)))
    (.alt rfl rfl (.zeroOrMore rfl (leads_sounding (by decide))) (leads_sounding (by decide))))

/-- The end of a record, and then the records without notes after it. -/
theorem branchLeads_rest :
    BranchLeads controlItem [restItem, .plain '\n', skipItem] .sounding .between :=
  .cons rfl (.rest (Or.inr rfl)) (.cons rfl (.chars rfl) (.singleton rfl .skip))

end Record

namespace NotePattern

theorem branchLeads_durationItems (note : NotePattern) :
    BranchLeads controlItem note.durationItems .opening .inside := by
  obtain ⟨pitch, duration⟩ := note
  cases duration with
  | any => exact Record.branchLeads_anyDuration
  | exact duration =>
    -- The code of a duration has digits only and is not empty, and its dots come after it.
    obtain ⟨c, text, heq⟩ := List.exists_cons_of_ne_nil duration.code.kern_ne_nil
    have hdigits : ∀ d ∈ c :: text, d.isDigit = true := by
      intro d hd
      exact DurationCode.isDigit_of_mem_kern (heq ▸ hd)
    obtain ⟨hdigit, htext⟩ := List.forall_mem_cons.mp hdigits
    have hrest : ∀ d ∈ text ++ List.replicate duration.dots.toNat '.',
        d.isDigit = true ∨ d = '.' := by
      intro d hd
      exact (List.mem_append.mp hd).imp (htext d) List.eq_of_mem_replicate
    simpa [durationItems, DottedDuration.items, heq] using Record.branchLeads_duration hdigit hrest

theorem branchLeads_accidentalItems (accidental : Constraint Accidental) :
    BranchLeads controlItem (accidentalItems accidental) .sounding .sounding := by
  cases accidental with
  | any => exact .singleton rfl Record.leads_accidentalItem
  | exact accidental =>
    have hall : (accidental.kern?.getD []).all
        (fun c => c != '\n' && !Record.pitchEnds.contains c) = true := by
      cases accidental <;> decide
    exact branchLeads_plain fun c hc =>
      Record.leads_sounding (by simpa using List.all_eq_true.mp hall c hc)

theorem branchLeads_pitchItems (note : NotePattern) :
    BranchLeads controlItem note.pitchItems .inside .sounding := by
  obtain ⟨pitch, duration⟩ := note
  cases pitch with
  | any => exact .cons rfl Record.leads_lettersItem (.singleton rfl Record.leads_accidentalItem)
  | exact pitch =>
    -- The first letter begins the pitch; the other ones and the accidental go on with it.
    obtain ⟨c, text, heq⟩ :=
      List.exists_cons_of_ne_nil (kernLetters_ne_nil pitch.letter pitch.octave)
    have hletters : ∀ d ∈ c :: text, d ∈ Record.letters :=
      fun d hd => Record.mem_letters_of_mem_kernLetters (heq ▸ hd)
    obtain ⟨hletter, htext⟩ := List.forall_mem_cons.mp hletters
    have hrest : BranchLeads controlItem (text.map plain) .sounding .sounding :=
      branchLeads_plain fun d hd =>
        Record.leads_sounding (Record.sounding_of_mem_letters (htext d hd))
    have hbegun := BranchLeads.cons rfl (Record.leads_letter hletter) hrest
    simpa [pitchItems, PitchPattern.items, heq] using
      hbegun.append (branchLeads_accidentalItems pitch.accidental)

/-- The items of a note lead from record to record. -/
theorem branchLeads_items (note : NotePattern) :
    BranchLeads controlItem note.items .between .between := by
  have hpitch := Record.branchLeads_start.append
    (note.branchLeads_durationItems.append note.branchLeads_pitchItems)
  simpa [items] using hpitch.append Record.branchLeads_rest

end NotePattern

/-- A group of branches that lead from record to record, as often as a quantifier asks for. -/
theorem leads_quantifier (quantifier : Quantifier) {pieces : List Piece}
    (h : BranchesLead controlItem (Piece.branches pieces) .between .between) :
    Leads controlItem (quantifier.loop (.group true (Piece.tree pieces))) .between .between := by
  have htree := leads_ofBranches h (Piece.branches_ne_nil pieces) rfl rfl
  have hgroup : Leads controlItem (.group true (Piece.tree pieces)) .between .between :=
    .group rfl rfl htree
  cases quantifier with
  | exactlyOne => exact hgroup
  | optional => exact .optional rfl hgroup
  | oneOrMore => exact .oneOrMore rfl rfl hgroup hgroup
  | zeroOrMore => exact .zeroOrMore rfl hgroup

namespace Pattern

/-- The branches of every pattern lead from record to record. -/
theorem branchesLead_pieces (pattern : Pattern) :
    BranchesLead controlItem (Piece.branches pattern.pieces) .between .between := by
  refine holds_of_mem_branches ⟨.nil _, .append, NotePattern.branchLeads_items, ?_⟩ pattern
  intro quantifier pieces hpieces
  refine .singleton ?_ (leads_quantifier quantifier hpieces)
  cases quantifier <;> rfl

/-- The tree of every pattern leads from record to record. -/
theorem leads_syntaxTree (pattern : Pattern) :
    Leads controlItem pattern.syntaxTree .between .between :=
  leads_ofBranches pattern.branchesLead_pieces (Piece.branches_ne_nil _) rfl rfl

/-- So does the form in which it is matched. -/
theorem leads_factored (pattern : Pattern) :
    Leads Record.matchedControl pattern.syntaxTree.factored .between .between :=
  pattern.leads_syntaxTree.factored

end Pattern

end MotifSearch
