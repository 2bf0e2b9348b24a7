import MotifSearch.Proofs.Record.Insertion
import MotifSearch.Proofs.Regex.Completeness

/-!
# Preferred matches and records without notes

What the modes of a record say about the match that is preferred at a position: how it changes when
a record without notes is inserted, that it never ends with such a record, and that it does not
begin within one.

## Main results

* `preferredLength_insert_of_none`, `preferredLength_insert_of_le`, `preferredLength_insert_of_lt`
  — a line without notes is inserted after the beginning of a position
* `preferredLength_ne_of_control` — no match ends with a line without notes
* `getD_preferredLength` — where a match can begin
-/

namespace MotifSearch.Regex

variable {regex : Regex} {atLineStart : Bool} {before line text : List Char} {length : Nat}

private theorem inserted_whole (h : Leads Record.matchedControl regex .between .between)
    (hline : Record.IsControl line) (hne : before ≠ [])
    (hbefore : lineStartAfter atLineStart before = true) (text : List Char) :
    Inserted before.length line.length
      (endings [.whole rootAddress regex] atLineStart (before ++ text))
      (endings [.whole rootAddress regex] atLineStart (before ++ (line ++ text))) :=
  inserted_endings hline text ⟨.between, h, rfl⟩ (fun hnil => absurd hnil hne) hbefore

section Insert

variable (h : Leads Record.matchedControl regex .between .between)
variable (hline : Record.IsControl line) (hne : before ≠ [])
variable (hbefore : lineStartAfter atLineStart before = true)
include h hline hne hbefore

/-- Where there is no match, there is none after a line without notes has been inserted. -/
theorem preferredLength_insert_of_none
    (hnone : regex.preferredLength atLineStart (before ++ text) = none) :
    regex.preferredLength atLineStart (before ++ (line ++ text)) = none := by
  rw [preferredLength_eq_head?_endings, List.head?_eq_none_iff] at *
  exact (inserted_whole h hline hne hbefore text).eq_nil hnone

/-- A match that ends before the line stays as it is. -/
theorem preferredLength_insert_of_le
    (hsome : regex.preferredLength atLineStart (before ++ text) = some length)
    (hle : length ≤ before.length) :
    regex.preferredLength atLineStart (before ++ (line ++ text)) = some length := by
  rw [preferredLength_eq_head?_endings] at *
  exact (inserted_whole h hline hne hbefore text).keeps length hsome hle

/-- A match that goes on after the line skips it, or else is cut where it stands; it can only be cut
where the part before the line is a match. -/
theorem preferredLength_insert_of_lt
    (hsome : regex.preferredLength atLineStart (before ++ text) = some length)
    (hlt : before.length < length) :
    regex.preferredLength atLineStart (before ++ (line ++ text)) = some (length + line.length) ∨
      regex.preferredLength atLineStart (before ++ (line ++ text)) = some before.length ∧
        regex.meaning atLineStart before text := by
  rw [preferredLength_eq_head?_endings] at *
  rcases (inserted_whole h hline hne hbefore text).shifts length hsome hlt with h | ⟨h, hmem⟩
  · exact Or.inl h
  · obtain ⟨-, hmeaning⟩ := mem_endings_iff.mp hmem
    rw [List.take_left, List.drop_left] at hmeaning
    exact Or.inr ⟨h, hmeaning⟩

/-- No match ends with a line without notes. -/
theorem preferredLength_ne_of_control (text : List Char) :
    regex.preferredLength atLineStart (before ++ (line ++ text)) ≠
      some (before.length + line.length) := by
  have hpos : 0 < line.length := by
    obtain ⟨c, rest, rfl, -⟩ := hline
    simp
  -- Without the line, such a match would end in the place or before it, and so it would with it.
  intro heq
  cases hsome : regex.preferredLength atLineStart (before ++ text) with
  | none =>
    rw [preferredLength_insert_of_none h hline hne hbefore hsome] at heq
    cases heq
  | some length =>
    by_cases hle : length ≤ before.length
    · rw [preferredLength_insert_of_le h hline hne hbefore hsome hle, Option.some.injEq] at heq
      omega
    · rcases preferredLength_insert_of_lt h hline hne hbefore hsome (by omega) with h | ⟨h, -⟩
      · rw [h, Option.some.injEq] at heq
        omega
      · rw [h, Option.some.injEq] at heq
        omega

end Insert

section Begin

variable {c : Char} (h : Leads Record.matchedControl regex .between .between)
include h

/-- Where nothing is matched after the first character, a match is empty. -/
theorem getD_preferredLength_of_forall
    (hread : ∀ now left, Mode.between.step atLineStart c = some now →
      Part.Lead left now .between → endings left (c == '\n') text = []) :
    (regex.preferredLength atLineStart (c :: text)).getD 0 = 0 := by
  have hlead : Part.Lead [.whole rootAddress regex] .between .between := ⟨.between, h, rfl⟩
  cases hsome : regex.preferredLength atLineStart (c :: text) with
  | none => rfl
  | some length =>
    rw [preferredLength_eq_head?_endings] at hsome
    have hmem := List.mem_of_mem_head? hsome
    rw [endings, List.mem_flatMap] at hmem
    obtain ⟨move, hmove, hlength⟩ := hmem
    cases move with
    | stop passed => exact List.mem_singleton.mp hlength
    | read set left =>
      by_cases hset : set.contains c = true
      · obtain ⟨now, hstep, hleft⟩ := hlead.read_mem_movesOfAll hmove hset
        rw [Move.endings, hread now left hstep hleft] at hlength
        simp at hlength
      · simp [Move.endings, hset] at hlength

/-- A match that is not empty begins with a character that can be read between two records. -/
theorem getD_preferredLength (hc : Mode.between.step atLineStart c = none) (text : List Char) :
    (regex.preferredLength atLineStart (c :: text)).getD 0 = 0 := by
  refine getD_preferredLength_of_forall h fun now left hstep _ => ?_
  rw [hc] at hstep
  cases hstep

end Begin

end MotifSearch.Regex
