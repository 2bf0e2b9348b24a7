import Mathlib.Data.List.Basic
import MotifSearch.Proofs.Record.Preferred

/-!
# A marker at the end of a record

A character that does not go on with a pitch may be inserted at the end of a line that is not empty,
and a match that goes on beyond the end of the line just ends one character later. Before the pitch
has begun, a match ends within the line or not at all. After the rest of the record has begun, it
reads whatever stands there. In between, the pitch has been read and the record may or may not go
on: then the rest of the record reads the new character where the newline was read before. That is
the only difference, because each time a match can go on with either of them, it prefers the rest.

## Main definitions

* `Regex.Alike` — moves that differ by the new character only
* `Regex.Blocks` — moves of something that begins after the pitch has begun

## Main results

* `Leads.blocks` — the moves after the pitch are such blocks
* `endings_marker` — the endings of matches after a character is inserted at the end of a line
-/

namespace MotifSearch.Regex

variable {marker : Char} {text : List Char} {mode middle next : Mode} {regex : Regex}
variable {moves first second : List Move} {after more : List Part}
variable {andThen : List Nat → List Move}

/-- The matches that begin with some moves read one character more before a marker at the end of a
line than before its newline. -/
def Alike (marker : Char) (text : List Char) (moves : List Move) : Prop :=
  moves.flatMap (Move.endings (some marker) fun left => endings left false ('\n' :: text)) =
    (moves.flatMap (Move.endings (some '\n') fun left => endings left true text)).map (· + 1)

/-- Moves of something that begins when the pitch has begun, and that has other parts after it.
Where nothing but the newline is left of the record after it, one may also go on with the rest. -/
inductive Blocks (marker : Char) (text : List Char) (next : Mode) (after : List Part) :
    List Move → Prop
  | nil : Blocks marker text next after []
  | stop {passed : List Nat} {moves : List Move} (hnext : next ≠ .closing)
      (hmoves : Blocks marker text next after moves) :
      Blocks marker text next after (.stop passed :: moves)
  | reads {block moves : List Move} (hstop : ∀ passed, .stop passed ∉ block)
      (halike : Alike marker text (continueWith (fun _ => []) after block))
      (hmoves : Blocks marker text next after moves) :
      Blocks marker text next after (block ++ moves)
  | rest {address : Nat} {passed : List Nat} {moves : List Move} (hnext : next = .closing)
      (hmoves : Blocks marker text next after moves) :
      Blocks marker text next after
        (.read Record.pitchEnds [.whole address Record.lineItem] :: .stop passed :: moves)

theorem Alike.append (hfirst : Alike marker text first) (hsecond : Alike marker text second) :
    Alike marker text (first ++ second) := by
  unfold Alike at *
  rw [List.flatMap_append, List.flatMap_append, List.map_append, hfirst, hsecond]

/-- What reads neither the marker nor the newline makes no difference. -/
theorem alike_read {set : CharSet} (left : List Part) (hmarker : set.contains marker = false)
    (hnewline : set.contains '\n' = false) : Alike marker text [.read set left] := by
  simp [Alike, Move.endings, hmarker, hnewline]

/-- A marker is read by the rest of a record where the newline was read before. -/
theorem alike_rest {others left : List Part} (hmarker : Record.pitchEnds.contains marker = true)
    (hothers : ∀ place passed,
      Part.movesOfAll place others passed = [.read (.single '\n') left]) (address : Nat) :
    Alike marker text
      [.read Record.pitchEnds (.whole address Record.lineItem :: others),
        .read (.single '\n') left] := by
  have hline : endings (.whole address Record.lineItem :: others) false ('\n' :: text) =
      (endings left true text).map (· + 1) :=
    endings_again_line hothers address List.not_mem_nil false text
  have hends : Record.pitchEnds.contains '\n' = false := rfl
  have hne : (CharSet.single '\n').contains marker = false := by
    rw [CharSet.contains, beq_eq_false_iff_ne]
    exact Record.ne_newline_of_pitchEnds hmarker
  have hnewline : (CharSet.single '\n').contains '\n' = true := rfl
  simp [Alike, Move.endings, hmarker, hends, hne, hline, hnewline]

theorem continueWith_append :
    continueWith andThen after (first ++ second) =
      continueWith andThen after first ++ continueWith andThen after second :=
  List.flatMap_append

/-- Where nothing stops, it makes no difference what would come then. -/
theorem continueWith_congr {other : List Nat → List Move} (moves : List Move)
    (h : ∀ passed, .stop passed ∈ moves → andThen passed = other passed) :
    continueWith andThen after moves = continueWith other after moves := by
  apply List.flatMap_congr
  intro move hmove
  cases move with
  | stop passed => exact h passed hmove
  | read set left => rfl

namespace Blocks

theorem append (hfirst : Blocks marker text next after first)
    (hsecond : Blocks marker text next after second) :
    Blocks marker text next after (first ++ second) := by
  induction hfirst with
  | nil => exact hsecond
  | stop hnext _ ih => exact .stop hnext ih
  | reads hstop halike _ ih =>
    rw [List.append_assoc]
    exact .reads hstop halike ih
  | rest hnext _ ih => exact .rest hnext ih

theorem read {set : CharSet} (left : List Part) (hmarker : set.contains marker = false)
    (hnewline : set.contains '\n' = false) : Blocks marker text next after [.read set left] := by
  have hblock : Blocks marker text next after ([.read set left] ++ []) :=
    .reads (by simp) (alike_read _ hmarker hnewline) .nil
  exact hblock

/-- Moves without their stops. -/
theorem filter (h : Blocks marker text next after moves) (hnext : next ≠ .closing) :
    Blocks marker text next after (moves.filter (!·.isStop)) := by
  induction h with
  | nil => exact .nil
  | stop _ _ ih => exact ih
  | @reads block moves hstop halike _ ih =>
    have hblock : block.filter (!·.isStop) = block := by
      rw [List.filter_eq_self]
      intro move hmove
      cases move with
      | stop passed => exact absurd hmove (hstop passed)
      | read set left => rfl
    rw [List.filter_append, hblock]
    exact .reads hstop halike ih
  | rest hclosing => exact absurd hclosing hnext

theorem stopOnce (h : Blocks marker text next after moves) (hnext : next ≠ .closing) :
    Blocks marker text next after (stopOnce moves) := by
  induction h with
  | nil => exact .nil
  | stop _ hmoves => exact .stop hnext (hmoves.filter hnext)
  | @reads block moves hstop halike _ ih =>
    have hblock : Regex.stopOnce (block ++ moves) = block ++ Regex.stopOnce moves := by
      clear halike
      induction block with
      | nil => rfl
      | cons move block ih =>
        cases move with
        | stop passed => exact absurd List.mem_cons_self (hstop passed)
        | read set left =>
          have hrest := ih fun passed hmem => hstop passed (List.mem_cons_of_mem _ hmem)
          simp only [List.cons_append, Regex.stopOnce, hrest]
    rw [hblock]
    exact .reads hstop halike ih
  | rest hclosing => exact absurd hclosing hnext

/-- Where nothing stops, the moves of other parts that come after make no difference. -/
theorem alike (h : Blocks marker text next after moves) (hstop : ∀ passed, .stop passed ∉ moves) :
    Alike marker text (continueWith (fun _ => []) after moves) := by
  induction h with
  | nil => rfl
  | stop => exact absurd List.mem_cons_self (hstop _)
  | reads _ halike _ ih =>
    rw [continueWith_append]
    exact halike.append (ih fun passed hmem => hstop passed (List.mem_append_right _ hmem))
  | rest => exact absurd (List.mem_cons_of_mem _ List.mem_cons_self) (hstop _)

/-- Moves of something go on with those of other parts where it stops. It does so only if the pitch
goes on after it, or else if nothing but the newline is left of the record. -/
theorem continueWith (h : Blocks marker text middle (more ++ after) moves)
    (hmarker : Record.pitchEnds.contains marker = true)
    (hstop : ∀ passed, .stop passed ∈ moves → middle = .sounding ∨ middle = .closing)
    (hsounding : middle = .sounding → ∀ passed, Blocks marker text next after (andThen passed))
    (hclosing : middle = .closing → ∃ left,
      (∀ passed, andThen passed = [.read (.single '\n') left]) ∧
        ∀ place passed, Part.movesOfAll place (more ++ after) passed =
          [.read (.single '\n') (left ++ after)]) :
    Blocks marker text next after (continueWith andThen more moves) := by
  have hblock : ∀ {block}, (∀ passed, .stop passed ∉ block) →
      Regex.continueWith andThen more block = Regex.continueWith (fun _ => []) more block :=
    fun hstop => continueWith_congr _ fun passed hmem => absurd hmem (hstop passed)
  induction h with
  | nil => exact .nil
  | @stop passed moves hmiddle _ ih =>
    have hrest := ih fun passed hmem => hstop passed (List.mem_cons_of_mem _ hmem)
    exact (hsounding ((hstop passed List.mem_cons_self).resolve_right hmiddle) passed).append hrest
  | @reads block moves hreads halike _ ih =>
    have hrest := ih fun passed hmem => hstop passed (List.mem_append_right _ hmem)
    rw [continueWith_append, hblock hreads]
    refine .reads ?_ ?_ hrest
    · intro passed hmem
      obtain ⟨_, _, hnone⟩ := stop_mem_continueWith.mp hmem
      cases hnone
    · rwa [continueWith_assoc]
  | @rest address passed moves hmiddle _ ih =>
    have hrest := ih fun passed hmem =>
      hstop passed (List.mem_cons_of_mem _ (List.mem_cons_of_mem _ hmem))
    obtain ⟨left, hthen, hmoves⟩ := hclosing hmiddle
    have hpair : Blocks marker text next after
        ([.read Record.pitchEnds (.whole address Record.lineItem :: more),
          .read (.single '\n') left] ++ Regex.continueWith andThen more moves) :=
      .reads (by simp) (alike_rest hmarker hmoves address) hrest
    simpa [Regex.continueWith, hthen] using hpair

section Loop

variable {address : Nat} {greedy : Bool} {body : Regex} {inner : List Nat → List Move}
variable {passed : List Nat}

theorem choose (hnext : next ≠ .closing)
    (h : ∀ passed, Blocks marker text next after (inner passed)) :
    Blocks marker text next after (choose address greedy inner passed) := by
  unfold Regex.choose
  split
  · exact .nil
  · refine stopOnce ?_ hnext
    split
    · exact (h _).append (.stop hnext .nil)
    · exact .stop hnext (h _)

variable (hmarker : Record.pitchEnds.contains marker = true)
include hmarker

theorem againMoves
    (h : ∀ passed,
      Blocks marker text .sounding (.again address greedy body :: after) (inner passed)) :
    Blocks marker text .sounding after (againMoves address greedy body inner passed) := by
  refine choose (by decide) fun passed => ?_
  exact (h passed).continueWith hmarker (fun _ _ => Or.inl rfl) (fun _ _ => .nil)
    fun h => nomatch h

theorem firstMoves (hnext : next ≠ .closing)
    (h : ∀ passed, Blocks marker text next (.again address greedy body :: after) (inner passed))
    (hstop : ∀ passed, (∃ stopped, .stop stopped ∈ inner passed) → next = .sounding) :
    Blocks marker text next after (firstMoves address greedy body inner passed) := by
  refine (h passed).continueWith hmarker (fun stopped hmem => Or.inl (hstop passed ⟨stopped, hmem⟩))
    (fun _ passed => ?_) (fun hclosing => absurd hclosing hnext)
  split
  · exact .nil
  · exact .stop hnext .nil

end Loop

end Blocks

variable {place : Place} {address : Nat} {passed : List Nat} {parts : List Part}

/-- A match stops after the pitch only where the pitch may go on, or nothing but the newline is left
of the record. -/
theorem eq_of_step_sounding (atLineStart : Bool) (h : ∀ c now, next.step atLineStart c = some now →
    Mode.sounding.step atLineStart c = some now) : next = .sounding ∨ next = .closing := by
  cases next with
  | between | ended => cases h '\t' .opening rfl
  | opening | inside => cases h '4' .inside rfl
  | running => cases h 'a' .running rfl
  | sounding => exact Or.inl rfl
  | closing => exact Or.inr rfl

theorem Leads.eq_of_stop_mem_moves {stopped : List Nat}
    (h : Leads Record.matchedControl regex .sounding next)
    (hstop : .stop stopped ∈ regex.moves place address passed) :
    next = .sounding ∨ next = .closing :=
  eq_of_step_sounding place.atLineStart fun _ _ => h.step_of_stop_mem_moves hstop

/-- What begins when the pitch has begun differs by the marker only. -/
theorem Leads.blocks (h : Leads Record.matchedControl regex .sounding next)
    (hmarker : Record.pitchEnds.contains marker = true) (text : List Char) (after : List Part)
    (place : Place) (address : Nat) (passed : List Nat) :
    Blocks marker text next after (regex.moves place address passed) := by
  generalize hmode : Mode.sounding = mode at h
  induction h generalizing after address passed with
  | empty =>
    subst hmode
    exact .stop (by decide) .nil
  | chars h =>
    subst hmode
    obtain ⟨rfl, hset⟩ := CharSet.not_contains_of_after?_sounding h
    exact .read _ (hset marker (Or.inr hmarker)) (hset '\n' (Or.inl rfl))
  | lineStart | line | skip => cases hmode
  | @rest body hbody =>
    obtain ⟨bodyAddress, hmoves⟩ := Record.exists_moves_rest hbody place (2 * address)
    rw [moves, choose]
    split
    · exact .nil
    · dsimp only
      rw [if_pos rfl, hmoves]
      exact .rest rfl .nil
  | group _ _ _ ih => exact ih _ _ _ hmode
  | optional _ _ ih =>
    subst hmode
    exact .choose (by decide) fun passed => ih _ _ _ rfl
  | @oneOrMore _ _ _ next _ hnext hfirst _ ih =>
    subst hmode
    have hne : next ≠ .closing := by
      rintro rfl
      cases hnext
    refine .firstMoves hmarker hne (fun passed => ih _ _ _ rfl) ?_
    rintro passed ⟨stopped, hstop⟩
    exact (hfirst.eq_of_stop_mem_moves hstop).resolve_right hne
  | zeroOrMore _ _ ih =>
    subst hmode
    rw [moves]
    split
    · refine .choose (by decide) fun passed => ?_
      exact .firstMoves hmarker (by decide) (fun passed => ih _ _ _ rfl) fun _ _ => rfl
    · exact .againMoves hmarker fun passed => ih _ _ _ rfl
  | @cat first rest _ middle _ _ hfirst hrest ihfirst ihrest =>
    subst hmode
    refine (ihfirst _ (2 * address) passed rfl).continueWith hmarker
      (fun _ => hfirst.eq_of_stop_mem_moves) ?_ ?_
    · rintro rfl passed
      exact ihrest after _ passed rfl
    · rintro rfl
      obtain ⟨left, -, hmoves⟩ := hrest.exists_newline (2 * address + 1)
      refine ⟨left, hmoves place, ?_⟩
      intro place passed
      rw [List.singleton_append, Part.movesOfAll, Part.moves, hmoves]
      rfl
  | alt _ hnext _ _ ihfirst ihrest =>
    subst hmode
    rw [moves]
    split
    · exact .nil
    · refine ((ihfirst _ _ _ rfl).append (ihrest _ _ _ rfl)).stopOnce ?_
      rintro rfl
      cases hnext

/-- What is left when the pitch has begun differs by the marker only. -/
private theorem blocks_movesOfAll (h : Part.Lead parts .sounding .between)
    (hmarker : Record.pitchEnds.contains marker = true) (text : List Char) (place : Place)
    (passed : List Nat) : Blocks marker text .between [] (Part.movesOfAll place parts passed) := by
  induction parts generalizing passed with
  | nil => cases h
  | cons part parts ih =>
    obtain ⟨middle, hpart, hparts⟩ := h
    have hblocks : Blocks marker text middle (parts ++ []) (part.moves place passed) := by
      cases part with
      | whole address regex => exact Leads.blocks hpart hmarker text _ place address passed
      | again address greedy body =>
        cases hpart with
        | zeroOrMore _ hbody =>
          exact .againMoves hmarker fun passed => hbody.blocks hmarker text _ place _ passed
    refine hblocks.continueWith hmarker (fun _ hstop => ?_) ?_ ?_
    · exact eq_of_step_sounding place.atLineStart fun _ _ => Part.step_of_stop_mem_moves hpart hstop
    · rintro rfl passed
      exact ih hparts passed
    · rintro rfl
      obtain ⟨left, -, hmoves⟩ := exists_newline_of_lead hparts
      exact ⟨left, hmoves place, by simpa using hmoves⟩

theorem not_mem_stop_of_lead (h : Part.Lead parts mode .between)
    (hstop : mode.step place.atLineStart '\t' ≠ some .opening) (stopped : List Nat) :
    .stop stopped ∉ Part.movesOfAll place parts passed :=
  fun hmem => hstop (h.step_of_stop_mem_movesOfAll hmem rfl)

theorem alike_movesOfAll (h : Part.Lead parts .sounding .between)
    (hmarker : Record.pitchEnds.contains marker = true) (text : List Char) (place : Place) :
    Alike marker text (Part.movesOfAll place parts []) := by
  have hstop : ∀ stopped, .stop stopped ∉ Part.movesOfAll place parts [] :=
    not_mem_stop_of_lead h (by cases place.atLineStart <;> decide)
  have halike := (blocks_movesOfAll h hmarker text place []).alike hstop
  have hmoves := movesOfAll_append place parts [] []
  rw [List.append_nil,
    continueWith_congr _ fun stopped hmem => absurd hmem (hstop stopped)] at hmoves
  rwa [hmoves]

variable {atLineStart : Bool} {c : Char}

/-- Nothing is matched where a record has begun and the next character does not go on with it. -/
theorem endings_eq_nil (h : Part.Lead parts mode .between)
    (hstop : mode.step atLineStart '\t' ≠ some .opening) (hstep : mode.step atLineStart c = none)
    (text : List Char) : endings parts atLineStart (c :: text) = [] := by
  rw [endings, List.flatMap_eq_nil_iff]
  intro move hmove
  cases move with
  | stop stopped => exact absurd hmove (not_mem_stop_of_lead h hstop stopped)
  | read set left =>
    rw [Move.endings, if_neg]
    intro hset
    obtain ⟨now, hnow, -⟩ := h.read_mem_movesOfAll hmove hset
    rw [hstep] at hnow
    cases hnow

/-- How many characters a match has after a marker is inserted after `count` characters, given how
many it had. -/
def lengthWithMarker (count length : Nat) : Nat :=
  if count < length then length + 1 else length

theorem lengthWithMarker_succ (count length : Nat) :
    lengthWithMarker (count + 1) (length + 1) = lengthWithMarker count length + 1 := by
  unfold lengthWithMarker
  split <;> split <;> omega

theorem map_lengthWithMarker_zero {lengths : List Nat} (h : 0 ∉ lengths) :
    lengths.map (lengthWithMarker 0) = lengths.map (· + 1) := by
  apply List.map_congr_left
  intro length hlength
  have hpos : 0 < length := Nat.pos_of_ne_zero fun hzero => h (hzero ▸ hlength)
  rw [lengthWithMarker, if_pos hpos]

/-- Before the pitch has begun, nothing is matched beyond the end of a line. -/
private theorem endings_marker_of_beforePitch (h : Part.Lead parts mode .between)
    (hmode : mode.beforePitch = true) (hmarker : Record.pitchEnds.contains marker = true)
    (text : List Char) :
    endings parts false (marker :: '\n' :: text) =
      (endings parts false ('\n' :: text)).map (lengthWithMarker 0) := by
  rw [endings, endings, h.movesOfAll_eq ⟨false, some marker⟩ ⟨false, some '\n'⟩ rfl,
    List.map_flatMap]
  apply List.flatMap_congr
  intro move hmove
  cases move with
  | stop stopped => rfl
  | read set left =>
    have hnone : set.contains '\n' ≠ true := by
      intro hset
      obtain ⟨now, hnow, -⟩ := h.read_mem_movesOfAll hmove hset
      rw [Mode.step_newline_of_beforePitch hmode] at hnow
      cases hnow
    by_cases hset : set.contains marker = true
    · obtain ⟨now, hnow, hleft⟩ :=
        h.read_mem_movesOfAll hmove hset
      have hend : endings left (marker == '\n') ('\n' :: text) = [] := by
        have hfirst : (marker == '\n') = false :=
          beq_eq_false_iff_ne.mpr (Record.ne_newline_of_pitchEnds hmarker)
        rw [hfirst]
        rcases Mode.eq_of_step_of_beforePitch hmode hmarker hnow with rfl | rfl
        · exact endings_eq_nil hleft (by decide) rfl text
        · exact endings_eq_nil hleft (by decide) rfl text
      simp [Move.endings, hset, hnone, hend]
    · simp [Move.endings, hset, hnone]

theorem endings_marker_nil (h : Part.Lead parts mode .between) (hclosing : mode ≠ .closing)
    (hended : mode ≠ .ended) (hmarker : Record.pitchEnds.contains marker = true)
    (text : List Char) :
    endings parts false (marker :: '\n' :: text) =
      (endings parts false ('\n' :: text)).map (lengthWithMarker 0) := by
  have hne := Record.ne_newline_of_pitchEnds hmarker
  cases mode with
  | between | opening | inside => exact endings_marker_of_beforePitch h rfl hmarker text
  | sounding =>
    have halike := alike_movesOfAll h hmarker text ⟨false, some '\n'⟩
    have hfirst : (marker == '\n') = false := beq_eq_false_iff_ne.mpr hne
    have hzero : 0 ∉ endings parts false ('\n' :: text) := by
      rw [zero_mem_endings]
      rintro ⟨stopped, hstop⟩
      have hne : Mode.sounding.step false '\t' ≠ some .opening := by decide
      exact not_mem_stop_of_lead h hne stopped hstop
    rw [map_lengthWithMarker_zero hzero, endings,
      h.movesOfAll_eq ⟨false, some marker⟩ ⟨false, some '\n'⟩ rfl, hfirst]
    exact halike
  | running =>
    obtain ⟨after, -, hendings⟩ := endings_running h
    have hmarked := hendings [marker] text false (by simpa using Ne.symm hne)
    have hplain := hendings [] text false List.not_mem_nil
    rw [List.singleton_append] at hmarked
    rw [List.nil_append] at hplain
    rw [hmarked, hplain, map_lengthWithMarker_zero (by simp), List.map_map]
    rfl
  | closing => exact absurd rfl hclosing
  | ended => exact absurd rfl hended

/-- A match that goes on beyond the end of a line ends one character later after a marker is
inserted there, and no other match changes. -/
theorem endings_marker {before : List Char} (h : Part.Lead parts mode .between)
    (hclosing : mode ≠ .closing) (hended : atLineStart = false → mode ≠ .ended)
    (hbefore : lineStartAfter atLineStart before = false)
    (hmarker : Record.pitchEnds.contains marker = true) (text : List Char) :
    endings parts atLineStart (before ++ marker :: '\n' :: text) =
      (endings parts atLineStart (before ++ '\n' :: text)).map
        (lengthWithMarker before.length) := by
  -- Character by character, what is left leads on; where the marker is reached, a line has begun.
  induction before generalizing parts atLineStart mode with
  | nil =>
    obtain rfl : atLineStart = false := hbefore
    exact endings_marker_nil h hclosing (hended rfl) hmarker text
  | cons c before ih =>
    rw [List.cons_append, List.cons_append, endings, endings, List.map_flatMap]
    apply List.flatMap_congr
    intro move hmove
    cases move with
    | stop stopped => rfl
    | read set left =>
      by_cases hset : set.contains c = true
      · obtain ⟨now, hstep, hleft⟩ := h.read_mem_movesOfAll hmove hset
        have hnow : (c == '\n') = false → now ≠ .ended := by
          rintro hc rfl
          exact beq_eq_false_iff_ne.mp hc ((Mode.eq_ended_of_step hstep).mp rfl)
        rw [Move.endings, Move.endings, Option.any_some, if_pos hset, if_pos hset,
          ih hleft (Mode.ne_closing_of_step hstep) hnow hbefore, List.map_map, List.map_map]
        congr 1
        funext length
        exact (lengthWithMarker_succ before.length length).symm
      · simp [Move.endings, hset]

variable {before : List Char}

/-- The preferred match before and after a marker is inserted at the end of a line. -/
theorem preferredLength_marker (h : Leads Record.matchedControl regex .between .between)
    (hbefore : lineStartAfter atLineStart before = false)
    (hmarker : Record.pitchEnds.contains marker = true) (text : List Char) :
    regex.preferredLength atLineStart (before ++ marker :: '\n' :: text) =
      (regex.preferredLength atLineStart (before ++ '\n' :: text)).map
        (lengthWithMarker before.length) := by
  have hlead : Part.Lead [.whole rootAddress regex] .between .between := ⟨.between, h, rfl⟩
  rw [preferredLength_eq_head?_endings, preferredLength_eq_head?_endings,
    endings_marker hlead (by decide) (fun _ => by decide) hbefore hmarker, List.head?_map]

/-- No match that is not empty begins with a tab if the next character does not open a record. -/
theorem getD_preferredLength_tab (h : Leads Record.matchedControl regex .between .between)
    (hc : Mode.opening.step false c = none) (text : List Char) :
    (regex.preferredLength atLineStart ('\t' :: c :: text)).getD 0 = 0 := by
  refine getD_preferredLength_of_forall h fun now left hstep hleft => ?_
  obtain rfl : Mode.opening = now := Option.some.inj hstep
  exact endings_eq_nil hleft (by decide) hc text

end MotifSearch.Regex
