import MotifSearch.Proofs.Regex.Fresh

/-!
# Every match has an ending

The parts that are left while a loop is being matched say where in the body of the loop the match
has come to. When the loop goes on to another iteration, its body can meet choices that have been
passed. No match is lost by that: whatever the body could do from such a choice on could have been
done right away, by the parts that were left.

## Main definitions

* `Touches` — a choice belongs to the expression of one of the parts
* `Resumes` — parts that are left when an expression has read something
* `Covered` — the choices of an expression that have been passed are those of some parts

## Main results

* `accepts_or_resumed` — an expression that is entered again accepts what it matches, unless the
  parts that were left match it, too
* `mem_endings_iff` — the endings are those of the matches
* `preferredLength_eq_none_iff` — a match is found wherever there is one
-/

namespace MotifSearch

/-- The address of the expression that a part belongs to. -/
def Part.address : Part → Nat
  | whole address _ => address
  | again address _ _ => address

namespace Regex

/-- Whether some parts can be left when the expression at an address has read something. -/
inductive Resumes : Nat → Regex → List Part → Prop
  | chars {address : Nat} {set : CharSet} : Resumes address (chars set) []
  | group {address : Nat} {captures : Bool} {body : Regex} {parts : List Part}
      (h : Resumes (2 * address) body parts) : Resumes address (group captures body) parts
  | first {address : Nat} {first rest : Regex} {parts : List Part}
      (h : Resumes (2 * address) first parts) :
      Resumes address (cat first rest) (parts ++ [.whole (2 * address + 1) rest])
  | rest {address : Nat} {first rest : Regex} {parts : List Part}
      (h : Resumes (2 * address + 1) rest parts) : Resumes address (cat first rest) parts
  | left {address : Nat} {first rest : Regex} {parts : List Part}
      (h : Resumes (2 * address) first parts) : Resumes address (alt first rest) parts
  | right {address : Nat} {first rest : Regex} {parts : List Part}
      (h : Resumes (2 * address + 1) rest parts) : Resumes address (alt first rest) parts
  | option {address : Nat} {greedy : Bool} {body : Regex} {parts : List Part}
      (h : Resumes (2 * address) body parts) :
      Resumes address (loop .optional greedy body) parts
  | iteration {address : Nat} {times : Repeat} {greedy : Bool} {body : Regex} {parts : List Part}
      (htimes : times ≠ .optional) (h : Resumes (2 * address) body parts) :
      Resumes address (loop times greedy body) (parts ++ [.again address greedy body])

/-- Whether a choice is below the address of one of the parts. -/
def Touches (parts : List Part) (x : Nat) : Prop :=
  ∃ part ∈ parts, Below part.address x

theorem touches_append {first second : List Part} {x : Nat} :
    Touches (first ++ second) x ↔ Touches first x ∨ Touches second x := by
  simp [Touches, or_and_right, exists_or]

theorem touches_singleton {part : Part} {x : Nat} :
    Touches [part] x ↔ Below part.address x := by
  simp [Touches]

theorem Resumes.below_address {address : Nat} {regex : Regex} {parts : List Part}
    (h : Resumes address regex parts) : ∀ part ∈ parts, Below address part.address := by
  induction h with
  | chars => simp
  | group _ ih => exact fun part hpart => (ih part hpart).of_left
  | first _ ih =>
    intro part hpart
    rcases List.mem_append.mp hpart with hpart | hpart
    · exact (ih part hpart).of_left
    · obtain rfl := List.mem_singleton.mp hpart
      exact below_right _
  | rest _ ih => exact fun part hpart => (ih part hpart).of_right
  | left _ ih => exact fun part hpart => (ih part hpart).of_left
  | right _ ih => exact fun part hpart => (ih part hpart).of_right
  | option _ ih => exact fun part hpart => (ih part hpart).of_left
  | iteration _ _ ih =>
    intro part hpart
    rcases List.mem_append.mp hpart with hpart | hpart
    · exact (ih part hpart).of_left
    · obtain rfl := List.mem_singleton.mp hpart
      exact Below.refl _

theorem Touches.below {address x : Nat} {regex : Regex} {parts : List Part}
    (h : Touches parts x) (hresumes : Resumes address regex parts) : Below address x := by
  obtain ⟨part, hpart, hx⟩ := h
  exact (hresumes.below_address part hpart).trans hx

variable {place : Place}

/-- What is left after reading a character resumes the expression. -/
theorem resumes_of_read_mem_moves {address : Nat} {regex : Regex} {set : CharSet}
    {left : List Part} {passed : List Nat}
    (h : .read set left ∈ regex.moves place address passed) : Resumes address regex left := by
  induction regex generalizing address passed left with
  | empty => simp [moves] at h
  | chars other =>
    obtain ⟨rfl, rfl⟩ := Move.read.inj (List.mem_singleton.mp h)
    exact .chars
  | lineStart =>
    rw [moves] at h
    split at h <;> simp at h
  | notAhead other =>
    rw [moves] at h
    split at h <;> simp at h
  | group captures body ih => exact .group (ih h)
  | cat first rest ihfirst ihrest =>
    rcases read_mem_continueWith.mp h with ⟨more, hmore, rfl⟩ | ⟨_, _, hrest⟩
    · exact .first (ihfirst hmore)
    · exact .rest (ihrest hrest)
  | alt first rest ihfirst ihrest =>
    rw [moves] at h
    split at h
    · simp at h
    · rcases List.mem_append.mp (read_mem_stopOnce.mp h) with h | h
      · exact .left (ihfirst h)
      · exact .right (ihrest h)
  | loop times greedy body ih =>
    by_cases htimes : times = .optional
    · subst htimes
      exact .option (ih (read_mem_choose.mp h).2)
    · obtain ⟨between, more, hmore, rfl⟩ := exists_of_read_mem_loop htimes h
      exact .iteration htimes (ih hmore)

/-- Parts that resume an expression still do so after reading a character. -/
theorem Resumes.of_read_mem {address : Nat} {regex : Regex} {parts left : List Part}
    {set : CharSet} {passed : List Nat} (hresumes : Resumes address regex parts)
    (h : .read set left ∈ Part.movesOfAll place parts passed) : Resumes address regex left := by
  induction hresumes generalizing passed left with
  | chars => simp [Part.movesOfAll] at h
  | group _ ih => exact .group (ih h)
  | first _ ih =>
    rw [movesOfAll_concat] at h
    rcases read_mem_continueWith.mp h with ⟨more, hmore, rfl⟩ | ⟨_, _, hrest⟩
    · exact .first (ih hmore)
    · exact .rest (resumes_of_read_mem_moves hrest)
  | rest _ ih => exact .rest (ih h)
  | left _ ih => exact .left (ih h)
  | right _ ih => exact .right (ih h)
  | option _ ih => exact .option (ih h)
  | iteration htimes _ ih =>
    rw [movesOfAll_concat] at h
    rcases read_mem_continueWith.mp h with ⟨more, hmore, rfl⟩ | ⟨_, _, hrest⟩
    · exact .iteration htimes (ih hmore)
    · obtain ⟨between, more, hmore, rfl⟩ := exists_of_read_mem_againMoves hrest
      exact .iteration htimes (resumes_of_read_mem_moves hmore)

/-- Parts pass no choices but those of their own. -/
theorem movesOfAll_passed {parts : List Part} {passed stopped : List Nat}
    (h : .stop stopped ∈ Part.movesOfAll place parts passed) :
    ∀ x ∈ stopped, x ∈ passed ∨ Touches parts x := by
  induction parts generalizing passed with
  | nil =>
    obtain rfl := Move.stop.inj (List.mem_singleton.mp h)
    exact fun x => Or.inl
  | cons part parts ih =>
    obtain ⟨between, hbetween, hstopped⟩ := stop_mem_continueWith.mp h
    have hpart : ∀ x ∈ between, x ∈ passed ∨ Below part.address x := by
      cases part with
      | whole address regex => exact passed_below hbetween
      | again address greedy body => exact againMoves_below hbetween
    intro x hx
    rw [← List.singleton_append, touches_append, touches_singleton]
    rcases ih hstopped x hx with hx | hx
    · exact (hpart x hx).imp_right Or.inl
    · exact Or.inr (Or.inr hx)

variable {address : Nat} {regex : Regex} {parts : List Part} {passed : List Nat}
variable {c : Char} {word after : List Char}

/-- Whether the choices below an address that have been passed are all choices of some parts. -/
def Covered (address : Nat) (parts : List Part) (passed : List Nat) : Prop :=
  ∀ x ∈ passed, Below address x → Touches parts x

namespace Covered

theorem left (h : Covered address parts passed) : Covered (2 * address) parts passed :=
  fun x hx hbelow => h x hx hbelow.of_left

theorem right (h : Covered address parts passed) : Covered (2 * address + 1) parts passed :=
  fun x hx hbelow => h x hx hbelow.of_right

theorem cons {choice : Nat} (h : Covered address parts passed) (hchoice : ¬ Below address choice) :
    Covered address parts (choice :: passed) := by
  intro x hx hbelow
  rcases List.mem_cons.mp hx with rfl | hx
  · exact absurd hbelow hchoice
  · exact h x hx hbelow

/-- What is below one child stays covered while the other one is matched. -/
theorem right_of_left {stopped : List Nat} (h : Covered address parts passed) (hpos : 0 < address)
    (hstopped : ∀ x ∈ stopped, x ∈ passed ∨ Below (2 * address) x) :
    Covered (2 * address + 1) parts stopped := by
  intro x hx hbelow
  rcases hstopped x hx with hx | hx
  · exact h x hx hbelow.of_right
  · exact absurd hbelow (Below.disjoint hpos hx)

/-- Parts of the first child cover none of their choices by one that comes after them. -/
theorem of_append (h : Covered address (parts ++ [.whole (2 * address + 1) regex]) passed)
    (hpos : 0 < address) : Covered (2 * address) parts passed := by
  intro x hx hbelow
  rcases touches_append.mp (h x hx hbelow.of_left) with htouches | htouches
  · exact htouches
  · exact absurd (touches_singleton.mp htouches) (Below.disjoint hpos hbelow)

/-- Parts of one child cover no choice of the other one. -/
theorem fresh_right (h : Covered address parts passed) (hpos : 0 < address)
    (hresumes : Resumes (2 * address) regex parts) : Fresh (2 * address + 1) passed :=
  fun x hx hbelow => Below.disjoint hpos ((h x hx hbelow.of_right).below hresumes) hbelow

theorem fresh_left (h : Covered address parts passed) (hpos : 0 < address)
    (hresumes : Resumes (2 * address + 1) regex parts) : Fresh (2 * address) passed :=
  fun x hx hbelow => Below.disjoint hpos hbelow ((h x hx hbelow.of_left).below hresumes)

/-- Parts of a child do not cover the choice of the expression itself. -/
theorem not_mem_of_left (h : Covered address parts passed) (hpos : 0 < address)
    (hresumes : Resumes (2 * address) regex parts) : address ∉ passed :=
  fun hmem => not_below_left hpos ((h _ hmem (Below.refl _)).below hresumes)

theorem not_mem_of_right (h : Covered address parts passed) (hpos : 0 < address)
    (hresumes : Resumes (2 * address + 1) regex parts) : address ∉ passed :=
  fun hmem => not_below_right hpos ((h _ hmem (Below.refl _)).below hresumes)

end Covered

/-- Where all choices that have been passed are those of the parts that were left, an expression
that is entered again accepts what it matches, or else the parts match it, too. -/
theorem accepts_or_resumed (hpos : 0 < address) (hresumes : Resumes address regex parts)
    (hcovered : Covered address parts passed) (hnext : place.next = some c)
    (hempty : Part.meaningOfAll parts place.atLineStart [] (c :: word ++ after))
    (h : regex.meaning place.atLineStart (c :: word) after) :
    Accepts (regex.moves place address passed) c word after ∨
      Part.meaningOfAll parts place.atLineStart (c :: word) after := by
  -- The parts lie below one child only. The other child is fresh, and it accepts all its matches.
  induction hresumes generalizing passed word after with
  | chars =>
    obtain ⟨d, hset, heq⟩ := h
    obtain ⟨rfl, rfl⟩ := List.cons.inj heq
    exact Or.inl ⟨_, [], List.mem_singleton.mpr rfl, hset, rfl⟩
  | group _ ih => exact ih (by omega) hcovered.left hempty h
  | @first address first rest parts hfirst ih =>
    rw [Part.meaningOfAll_append, Part.meaningOfAll_singleton] at hempty ⊢
    have hparts := (Meaning.followedBy_nil.mp hempty).1
    rcases Meaning.followedBy_cons.mp h with ⟨-, hright⟩ | ⟨here, there, rfl, hleft, hright⟩
    · -- Nothing is read before the rest, and the parts need not read anything before it either.
      exact Or.inr (Meaning.followedBy_cons.mpr (Or.inl ⟨hparts, hright⟩))
    · rcases ih (by omega) (hcovered.of_append hpos) (by simpa using hparts) hleft with
        haccepts | hresumed
      · left
        refine accepts_continueWith_of_left haccepts ?_
        rwa [Part.meaningOfAll_singleton]
      · right
        exact Meaning.followedBy_cons.mpr (Or.inr ⟨here, there, rfl, hresumed, hright⟩)
  | @rest address first rest parts hrest ih =>
    have hfresh : Fresh (2 * address) passed := hcovered.fresh_left hpos hrest
    rcases Meaning.followedBy_cons.mp h with ⟨hleft, hright⟩ | ⟨here, there, rfl, hleft, hright⟩
    · have hhead : (c :: word ++ after).head? = place.next := hnext.symm
      obtain ⟨between, hbetween⟩ := stops_of_meaning (by omega) hfresh hhead hleft
      have hbelow := hcovered.right_of_left hpos (passed_below hbetween)
      exact (ih (by omega) hbelow hempty hright).imp_left (accepts_continueWith_of_right hbetween)
    · left
      refine accepts_continueWith_of_left (moves_complete (by omega) hfresh hnext hleft) ?_
      rwa [Part.meaningOfAll_singleton]
  | @left address first rest parts hfirst ih =>
    have hfree := hcovered.not_mem_of_left hpos hfirst
    rcases h with h | h
    · have hown := hcovered.left.cons (not_below_left hpos)
      exact (ih (by omega) hown hempty h).imp_left (accepts_alt_of_left hfree)
    · have hfresh := (hcovered.fresh_right hpos hfirst).cons (not_below_right hpos)
      exact Or.inl (accepts_alt_of_right hfree (moves_complete (by omega) hfresh hnext h))
  | @right address first rest parts hrest ih =>
    have hfree := hcovered.not_mem_of_right hpos hrest
    rcases h with h | h
    · have hfresh := (hcovered.fresh_left hpos hrest).cons (not_below_left hpos)
      exact Or.inl (accepts_alt_of_left hfree (moves_complete (by omega) hfresh hnext h))
    · have hown := hcovered.right.cons (not_below_right hpos)
      exact (ih (by omega) hown hempty h).imp_left (accepts_alt_of_right hfree)
  | @option address greedy body parts hbody ih =>
    have hfree := hcovered.not_mem_of_left hpos hbody
    rcases h with h | h
    · cases h
    · have hown := hcovered.left.cons (not_below_left hpos)
      exact (ih (by omega) hown hempty h).imp_left (accepts_choose hfree)
  | @iteration address times greedy body parts htimes hbody ih =>
    -- The parts end with the loop itself, so they can do whatever another iteration can do.
    right
    have hiterated : Meaning.Iterated body.meaning place.atLineStart (c :: word) after := by
      cases times with
      | optional => exact absurd rfl htimes
      | oneOrMore => exact h
      | zeroOrMore => exact h.resolve_left (by simp [Meaning.nothing])
    rw [Part.meaningOfAll_append, Part.meaningOfAll_singleton] at hempty ⊢
    have hparts := (Meaning.followedBy_nil.mp hempty).1
    exact Meaning.followedBy_cons.mpr (Or.inl ⟨hparts, Or.inr hiterated⟩)

/-- The choices that fresh parts pass are their own. -/
theorem Fresh.covered {stopped : List Nat} (hfresh : Fresh address passed)
    (hstopped : .stop stopped ∈ Part.movesOfAll place parts passed) :
    Covered address parts stopped := by
  intro x hx hbelow
  rcases movesOfAll_passed hstopped x hx with hx | hx
  · exact absurd hbelow (hfresh x hx)
  · exact hx

/-- The parts that are left behind those that stop are fresh. -/
theorem Fresh.of_movesOfAll {first : Regex} {stopped : List Nat} (hpos : 0 < address)
    (hfresh : Fresh address passed) (hresumes : Resumes (2 * address) first parts)
    (hstopped : .stop stopped ∈ Part.movesOfAll place parts passed) :
    Fresh (2 * address + 1) stopped :=
  (hfresh.covered hstopped).fresh_right hpos hresumes

/-- Parts that resume an expression and match the empty word have a stop. -/
theorem Resumes.stops (hpos : 0 < address) (hresumes : Resumes address regex parts)
    (hfresh : Fresh address passed) (hafter : after.head? = place.next)
    (h : Part.meaningOfAll parts place.atLineStart [] after) :
    Stops (Part.movesOfAll place parts passed) := by
  induction hresumes generalizing passed with
  | chars => exact ⟨passed, List.mem_singleton.mpr rfl⟩
  | group _ ih => exact ih (by omega) hfresh.left h
  | @first address first rest parts hfirst ih =>
    rw [Part.meaningOfAll_append, Part.meaningOfAll_singleton] at h
    obtain ⟨hleft, hright⟩ := Meaning.followedBy_nil.mp h
    obtain ⟨between, hbetween⟩ := ih (by omega) hfresh.left hleft
    obtain ⟨stopped, hstopped⟩ :=
      stops_of_meaning (by omega) (hfresh.of_movesOfAll hpos hfirst hbetween) hafter hright
    rw [movesOfAll_concat]
    exact ⟨stopped, stop_mem_continueWith.mpr ⟨between, hbetween, hstopped⟩⟩
  | rest _ ih => exact ih (by omega) hfresh.right h
  | left _ ih => exact ih (by omega) hfresh.left h
  | right _ ih => exact ih (by omega) hfresh.right h
  | option _ ih => exact ih (by omega) hfresh.left h
  | @iteration address times greedy body parts htimes hbody ih =>
    rw [Part.meaningOfAll_append] at h
    obtain ⟨hleft, -⟩ := Meaning.followedBy_nil.mp h
    obtain ⟨between, hbetween⟩ := ih (by omega) hfresh.left hleft
    have hagain : Stops ((Part.again address greedy body).moves place between) :=
      stops_againMoves (hfresh.of_movesOfAll hpos hbody hbetween).not_mem
    obtain ⟨stopped, hstopped⟩ := hagain
    rw [movesOfAll_concat]
    exact ⟨stopped, stop_mem_continueWith.mpr ⟨between, hbetween, hstopped⟩⟩

/-- Parts that resume an expression accept all words that they match. -/
theorem Resumes.accepts (hpos : 0 < address) (hresumes : Resumes address regex parts)
    (hfresh : Fresh address passed) (hnext : place.next = some c)
    (h : Part.meaningOfAll parts place.atLineStart (c :: word) after) :
    Accepts (Part.movesOfAll place parts passed) c word after := by
  have hhead : ∀ text : List Char, (c :: text).head? = place.next := fun _ => hnext.symm
  induction hresumes generalizing passed word after with
  | chars => cases h
  | group _ ih => exact ih (by omega) hfresh.left h
  | @first address first rest parts hfirst ih =>
    rw [Part.meaningOfAll_append] at h
    rw [movesOfAll_concat]
    rcases Meaning.followedBy_cons.mp h with ⟨hleft, hright⟩ | ⟨here, there, rfl, hleft, hright⟩
    · rw [Part.meaningOfAll_singleton] at hright
      obtain ⟨between, hbetween⟩ := hfirst.stops (by omega) hfresh.left (hhead _) hleft
      have hrest := hfresh.of_movesOfAll hpos hfirst hbetween
      exact accepts_continueWith_of_right hbetween (moves_complete (by omega) hrest hnext hright)
    · exact accepts_continueWith_of_left (ih (by omega) hfresh.left hleft) hright
  | rest _ ih => exact ih (by omega) hfresh.right h
  | left _ ih => exact ih (by omega) hfresh.left h
  | right _ ih => exact ih (by omega) hfresh.right h
  | option _ ih => exact ih (by omega) hfresh.left h
  | @iteration address times greedy body parts htimes hbody ih =>
    rw [Part.meaningOfAll_append] at h
    rw [movesOfAll_concat]
    rcases Meaning.followedBy_cons.mp h with ⟨hleft, hright⟩ | ⟨here, there, rfl, hleft, hright⟩
    · rw [Part.meaningOfAll_singleton] at hright
      have hiterated : Meaning.Iterated body.meaning place.atLineStart (c :: word) after :=
        hright.resolve_left (by simp [Meaning.nothing])
      obtain ⟨here, there, rfl, hhere, hthere⟩ := hiterated.cons_inv
      obtain ⟨between, hbetween⟩ := hbody.stops (by omega) hfresh.left (hhead _) hleft
      have hfree := (hfresh.of_movesOfAll hpos hbody hbetween).not_mem
      have hown : Covered (2 * address) parts ((2 * address + 1) :: between) :=
        (hfresh.left.covered hbetween).cons fun hbelow => Below.disjoint hpos hbelow (Below.refl _)
      have hloop : Part.meaningOfAll [.again address greedy body]
          (lineStartAfter (c == '\n') here) there after := by
        rwa [Part.meaningOfAll_singleton]
      -- What another iteration cannot do any more can still be done by the parts before the loop.
      rcases accepts_or_resumed (by omega) hbody hown hnext (by simpa using hleft) hhere with
        haccepts | hresumed
      · have hagain : Accepts (againMoves address greedy body (body.moves place (2 * address))
            between) c (here ++ there) after :=
          accepts_choose hfree (accepts_continueWith_of_left haccepts hloop)
        exact accepts_continueWith_of_right hbetween hagain
      · exact accepts_continueWith_of_left (ih (by omega) hfresh.left hresumed) hloop
    · exact accepts_continueWith_of_left (ih (by omega) hfresh.left hleft) hright

/-- Parts that are in play while an expression is being matched: all of it, or what is left. -/
def InPlay (regex : Regex) (parts : List Part) : Prop :=
  parts = [.whole rootAddress regex] ∨ Resumes rootAddress regex parts

theorem InPlay.start (regex : Regex) : InPlay regex [.whole rootAddress regex] := Or.inl rfl

theorem InPlay.of_read_mem {set : CharSet} {left : List Part} (h : InPlay regex parts)
    (hmove : .read set left ∈ Part.movesOfAll place parts []) : InPlay regex left := by
  rcases h with rfl | h
  · rw [movesOfAll_singleton] at hmove
    exact Or.inr (resumes_of_read_mem_moves hmove)
  · exact Or.inr (h.of_read_mem hmove)

/-- Every match of parts in play has an ending. -/
theorem mem_endings_of_meaning {atLineStart : Bool} (hparts : InPlay regex parts)
    (h : Part.meaningOfAll parts atLineStart word after) :
    word.length ∈ endings parts atLineStart (word ++ after) := by
  have hroot : 0 < rootAddress := Nat.one_pos
  induction word generalizing parts atLineStart with
  | nil =>
    have hstops : Stops (Part.movesOfAll ⟨atLineStart, after.head?⟩ parts []) := by
      rcases hparts with rfl | hparts
      · rw [movesOfAll_singleton]
        rw [Part.meaningOfAll_singleton] at h
        exact stops_of_meaning hroot (Fresh.nil _) rfl h
      · exact hparts.stops hroot (Fresh.nil _) rfl h
    obtain ⟨stopped, hstopped⟩ := hstops
    cases after with
    | nil => exact List.mem_flatMap.mpr ⟨_, hstopped, List.mem_singleton.mpr rfl⟩
    | cons c text => exact List.mem_flatMap.mpr ⟨_, hstopped, List.mem_singleton.mpr rfl⟩
  | cons c word ih =>
    have haccepts : Accepts (Part.movesOfAll ⟨atLineStart, some c⟩ parts []) c word after := by
      rcases hparts with rfl | hparts
      · rw [movesOfAll_singleton]
        rw [Part.meaningOfAll_singleton] at h
        exact moves_complete hroot (Fresh.nil _) rfl h
      · exact hparts.accepts hroot (Fresh.nil _) rfl h
    obtain ⟨set, left, hmove, hset, hleft⟩ := haccepts
    refine List.mem_flatMap.mpr ⟨_, hmove, ?_⟩
    simp only [Move.endings, Option.any_some, hset, if_true]
    exact List.mem_map.mpr ⟨_, ih (hparts.of_read_mem hmove) hleft, rfl⟩

/-- The endings of an expression are those of its matches. -/
theorem mem_endings_iff {atLineStart : Bool} {text : List Char} {length : Nat} :
    length ∈ endings [.whole rootAddress regex] atLineStart text ↔
      length ≤ text.length ∧
        regex.meaning atLineStart (text.take length) (text.drop length) := by
  have hmeaning : Part.meaningOfAll [.whole rootAddress regex] = regex.meaning :=
    Meaning.followedBy_nothing _
  constructor
  · intro h
    rw [← hmeaning]
    exact meaning_of_mem_endings h
  · rintro ⟨hle, h⟩
    rw [← hmeaning] at h
    have hmem := mem_endings_of_meaning (InPlay.start regex) h
    rwa [List.take_append_drop, List.length_take, Nat.min_eq_left hle] at hmem

/-- What the matcher finds is a match. -/
theorem meaning_of_preferredLength {atLineStart : Bool} {text : List Char} {length : Nat}
    (h : regex.preferredLength atLineStart text = some length) :
    length ≤ text.length ∧
      regex.meaning atLineStart (text.take length) (text.drop length) := by
  rw [preferredLength_eq_head?_endings] at h
  exact mem_endings_iff.mp (List.mem_of_mem_head? h)

/-- A match is found wherever there is one. -/
theorem preferredLength_eq_none_iff {atLineStart : Bool} {text : List Char} :
    regex.preferredLength atLineStart text = none ↔
      ∀ word after, text = word ++ after → ¬ regex.meaning atLineStart word after := by
  rw [preferredLength_eq_head?_endings, List.head?_eq_none_iff, List.eq_nil_iff_forall_not_mem]
  simp only [mem_endings_iff]
  constructor
  · rintro h word after rfl hmeaning
    exact h word.length ⟨by simp, by simpa using hmeaning⟩
  · rintro h length ⟨_, hmeaning⟩
    exact h _ _ (List.take_append_drop _ _).symm hmeaning

end Regex

end MotifSearch
