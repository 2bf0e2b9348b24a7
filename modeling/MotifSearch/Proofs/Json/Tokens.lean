import Mathlib.Data.List.Forall2
import MotifSearch.Json.Render

/-!
# The tokens of written values

A value that is written without blanks is split into the tokens that it is made of. Where a run of
characters ends depends on what follows it, so this is said of a text with more text after it that
cannot belong to a run: in a written value a run is followed by a comma, a closing bracket or
nothing.

A value can be written and read back if its strings are texts and its numbers are integers.

## Main definitions

* `Json.IsPlain` — a value that can be read back
* `Json.tokens` — the tokens that a value is made of
* `Json.ReadsAs` — a text is split into some tokens, whatever is in front of it and behind it

## Main results

* `scan_flatMap_escapeChar` — a string is read back, with all its escapes
* `ReadsAs.word`, `ReadsAs.intercalate`, `ReadsAs.enclosed` — how texts are put together
* `readsAs_render` — a written value is split into its tokens
-/

namespace MotifSearch.Json

/-- A value that can be written and read back. -/
inductive IsPlain : Json → Prop where
  | null : IsPlain null
  | bool (value : Bool) : IsPlain (bool value)
  | integer (value : Int) : IsPlain (integer value)
  | text (chars : List Char) : IsPlain (text chars)
  | array {items : List Json} (hitems : ∀ item ∈ items, IsPlain item) : IsPlain (array items)
  | object {fields : List (JsonText × Json)} (hkeys : ∀ field ∈ fields, field.1.isSome = true)
    (hvalues : ∀ field ∈ fields, IsPlain field.2) : IsPlain (object fields)

namespace IsPlain

theorem nat (n : Nat) : (nat n).IsPlain :=
  .integer n

theorem word (name : String) : (word name).IsPlain :=
  .text name.toList

theorem record {fields : List (String × Json)} (h : ∀ field ∈ fields, field.2.IsPlain) :
    (record fields).IsPlain := by
  refine .object (fun field hfield => ?_) fun field hfield => ?_
  · obtain ⟨_, -, rfl⟩ := List.mem_map.mp hfield
    rfl
  · obtain ⟨written, hwritten, rfl⟩ := List.mem_map.mp hfield
    exact h written hwritten

variable {α : Type} {encode : α → Json}

theorem option {value : Option α} (h : ∀ a, (encode a).IsPlain) :
    (option encode value).IsPlain := by
  cases value with
  | none => exact .null
  | some a => exact h a

theorem list {values : List α} (h : ∀ value ∈ values, (encode value).IsPlain) :
    (list encode values).IsPlain := by
  refine .array fun item hitem => ?_
  obtain ⟨value, hvalue, rfl⟩ := List.mem_map.mp hitem
  exact h value hvalue

end IsPlain

mutual

/-- The tokens that a value is made of. -/
def tokens : Json → List Token
  | array items => [.openArray] ++ [.comma].intercalate (itemTokens items) ++ [.closeArray]
  | object fields => [.openObject] ++ [.comma].intercalate (fieldTokens fields) ++ [.closeObject]
  | value => [.scalar value]

/-- The tokens of each item of an array. -/
def itemTokens : List Json → List (List Token)
  | [] => []
  | item :: items => item.tokens :: itemTokens items

/-- The tokens of each field of an object. -/
def fieldTokens : List (JsonText × Json) → List (List Token)
  | [] => []
  | (key, value) :: fields => (.scalar (string key) :: .colon :: value.tokens) :: fieldTokens fields

end

/-- Nothing that follows can belong to a run of characters. -/
def EndsRun (rest : List Char) : Prop :=
  ∀ c, rest.head? = some c → (punctuation? c).isSome = true

/-- A text is split into some tokens, whatever has been read before and wherever a run may end. -/
def ReadsAs (text : List Char) (written : List Token) : Prop :=
  ∀ before rest, EndsRun rest →
    scan .between before (text ++ rest) = scan .between (written.reverse ++ before) rest

/-- Whether a character can belong to a run. -/
def isRunChar (c : Char) : Bool :=
  !isBlank c && c != '"' && (punctuation? c).isNone

variable {before : List Token} {rest text : List Char} {written : List Token}

/-! ### Steps of the reader

One equation for each place where a reader may be, so that no proof has to open the definition. -/

section Steps

variable {str : OpenString} {seen : List Char} {c : Char}

theorem scan_between_cons : scan .between before (c :: rest) =
    if isBlank c then scan .between before rest
    else if c = '"' then scan (.inString .start) before rest
    else
      match punctuation? c with
      | some token => scan .between (token :: before) rest
      | none => scan (.run [c]) before rest :=
  rfl

theorem scan_run_nil : scan (.run seen) before [] =
    readWord seen.reverse >>= fun value => .ok (Token.scalar value :: before).reverse :=
  rfl

theorem scan_run_cons : scan (.run seen) before (c :: rest) =
    if isBlank c then do
      let value ← readWord seen.reverse
      scan .between (.scalar value :: before) rest
    else if c = '"' then .error .badWord
    else
      match punctuation? c with
      | some token => do
        let value ← readWord seen.reverse
        scan .between (token :: .scalar value :: before) rest
      | none => scan (.run (c :: seen)) before rest :=
  rfl

theorem scan_inString_cons : scan (.inString str) before (c :: rest) =
    if c = '"' then scan .between (.scalar (string str.close) :: before) rest
    else if c = '\\' then scan (.escape str) before rest
    else if c.toNat < 0x20 then .error .badCharacter
    else scan (.inString (str.push c)) before rest :=
  rfl

theorem scan_escape_cons : scan (.escape str) before (c :: rest) =
    if c = 'u' then scan (.codeUnit str 4 0) before rest
    else
      match escaped? c with
      | some d => scan (.inString (str.push d)) before rest
      | none => .error .badEscape :=
  rfl

theorem scan_codeUnit_cons {missing value : Nat} :
    scan (.codeUnit str missing value) before (c :: rest) =
      match hexDigit? c with
      | some digit =>
        if missing ≤ 1 then scan (.inString (str.pushUnit (value * 16 + digit))) before rest
        else scan (.codeUnit str (missing - 1) (value * 16 + digit)) before rest
      | none => .error .badEscape :=
  rfl

end Steps

section Strings

variable {seen : List Char} {c : Char}

theorem scan_escaped {mark : Char} (hmark : escaped? mark = some c) :
    scan (.inString ⟨some seen, none⟩) before ('\\' :: mark :: rest) =
      scan (.inString ⟨some (c :: seen), none⟩) before rest := by
  have hunit : mark ≠ 'u' := by
    rintro rfl
    cases hmark
  simp [scan_inString_cons, scan_escape_cons, hunit, hmark, OpenString.push]

theorem hexDigit?_digitChar {digit : Nat} (h : digit < 16) :
    hexDigit? (Nat.digitChar digit) = some digit := by
  revert digit
  decide

/-- An escape for a control character. -/
theorem scan_controlEscape (hcontrol : c.toNat < 0x20) :
    scan (.inString ⟨some seen, none⟩) before
        (['\\', 'u', '0', '0', Nat.digitChar (c.toNat / 16), Nat.digitChar (c.toNat % 16)] ++
          rest) =
      scan (.inString ⟨some (c :: seen), none⟩) before rest := by
  have hzero : hexDigit? '0' = some 0 := rfl
  have hhigh : hexDigit? (Nat.digitChar (c.toNat / 16)) = some (c.toNat / 16) :=
    hexDigit?_digitChar (by omega)
  have hlow : hexDigit? (Nat.digitChar (c.toNat % 16)) = some (c.toNat % 16) :=
    hexDigit?_digitChar (by omega)
  have hvalue : c.toNat / 16 * 16 + c.toNat % 16 = c.toNat := by omega
  have hpush : OpenString.pushUnit ⟨some seen, none⟩ c.toNat = ⟨some (c :: seen), none⟩ := by
    have hhalf : ¬ (0xd800 ≤ c.toNat ∧ c.toNat < 0xdc00) := by omega
    have hother : ¬ (0xdc00 ≤ c.toNat ∧ c.toNat < 0xe000) := by omega
    rw [OpenString.pushUnit, if_neg hhalf, if_neg hother, Char.ofNat_toNat]
    rfl
  simp [scan_inString_cons, scan_escape_cons, scan_codeUnit_cons, hzero, hhigh, hlow, hvalue, hpush]

/-- A character is read back, however it is written. -/
theorem scan_escapeChar (seen : List Char) (c : Char) :
    scan (.inString ⟨some seen, none⟩) before (escapeChar c ++ rest) =
      scan (.inString ⟨some (c :: seen), none⟩) before rest := by
  unfold escapeChar
  -- Seven characters are escaped by a letter or by themselves.
  iterate 7
    split
    · next h => subst h; exact scan_escaped rfl
  split
  · next hcontrol => exact scan_controlEscape hcontrol
  · next hquote hslash _ _ _ _ _ hcontrol =>
    simp [scan_inString_cons, hquote, hslash, hcontrol, OpenString.push]

/-- The text of a string is read back up to the closing quote. -/
theorem scan_flatMap_escapeChar (text seen : List Char) :
    scan (.inString ⟨some seen, none⟩) before (text.flatMap escapeChar ++ '"' :: rest) =
      scan .between (.scalar (string (some (seen.reverse ++ text))) :: before) rest := by
  induction text generalizing seen with
  | nil => simp [scan_inString_cons, OpenString.close]
  | cons c text ih =>
    rw [List.flatMap_cons, List.append_assoc, scan_escapeChar, ih, List.reverse_cons,
      List.append_assoc]
    rfl

theorem scan_quoteText (text : List Char) :
    scan .between before (quoteText text ++ rest) =
      scan .between (.scalar (string (some text)) :: before) rest := by
  have hopen : isBlank '"' = false := rfl
  rw [quoteText, List.append_assoc, List.cons_append, scan_between_cons, if_neg (by simp [hopen]),
    if_pos rfl]
  exact scan_flatMap_escapeChar text []

end Strings

section Runs

theorem isRunChar_iff {c : Char} :
    isRunChar c = true ↔ isBlank c = false ∧ c ≠ '"' ∧ punctuation? c = none := by
  simp [isRunChar, and_assoc]

theorem ne_of_punctuation {c : Char} {token : Token} (h : punctuation? c = some token) :
    isBlank c = false ∧ c ≠ '"' := by
  constructor
  · rw [Bool.eq_false_iff]
    intro hblank
    simp only [isBlank, Bool.or_eq_true, beq_iff_eq] at hblank
    rcases hblank with ((rfl | rfl) | rfl) | rfl <;> cases h
  · rintro rfl
    cases h

theorem scan_punctuation {c : Char} {token : Token} (h : punctuation? c = some token) :
    scan .between before (c :: rest) = scan .between (token :: before) rest := by
  obtain ⟨hblank, hquote⟩ := ne_of_punctuation h
  simp [scan_between_cons, hblank, hquote, h]

/-- A run goes on as long as its characters do. -/
theorem scan_run {run : List Char} (hrun : ∀ c ∈ run, isRunChar c = true) (seen : List Char) :
    scan (.run seen) before (run ++ rest) = scan (.run (run.reverse ++ seen)) before rest := by
  induction run generalizing seen with
  | nil => rfl
  | cons c run ih =>
    rw [List.forall_mem_cons, isRunChar_iff] at hrun
    obtain ⟨⟨hblank, hquote, hmark⟩, hrun⟩ := hrun
    have hstep : scan (.run seen) before (c :: (run ++ rest)) =
        scan (.run (c :: seen)) before (run ++ rest) := by
      simp [scan_run_cons, hblank, hquote, hmark]
    rw [List.cons_append, hstep, ih hrun]
    simp

/-- A run is read where it ends. -/
theorem scan_run_of_endsRun {seen : List Char} {value : Json}
    (hvalue : readWord seen.reverse = .ok value) (hrest : EndsRun rest) :
    scan (.run seen) before rest = scan .between (.scalar value :: before) rest := by
  cases rest with
  | nil =>
    rw [scan_run_nil, hvalue]
    rfl
  | cons c rest =>
    obtain ⟨token, htoken⟩ := Option.isSome_iff_exists.mp (hrest c rfl)
    obtain ⟨hblank, hquote⟩ := ne_of_punctuation htoken
    rw [scan_punctuation htoken]
    simp [scan_run_cons, hblank, hquote, htoken, hvalue, bind, Except.bind]

/-- A run that is followed by the end of one is read as its value. -/
theorem ReadsAs.word {run : List Char} {value : Json} (hne : run ≠ [])
    (hrun : ∀ c ∈ run, isRunChar c = true) (hvalue : readWord run = .ok value) :
    ReadsAs run [.scalar value] := by
  intro before rest hrest
  obtain ⟨c, run, rfl⟩ := List.exists_cons_of_ne_nil hne
  have hfirst := hrun c List.mem_cons_self
  rw [isRunChar_iff] at hfirst
  obtain ⟨hblank, hquote, hmark⟩ := hfirst
  have hstart : scan .between before (c :: (run ++ rest)) =
      scan (.run [c]) before (run ++ rest) := by
    simp [scan_between_cons, hblank, hquote, hmark]
  rw [List.cons_append, hstart, scan_run (List.forall_mem_cons.mp hrun).2]
  exact scan_run_of_endsRun (by simpa using hvalue) hrest

theorem isRunChar_of_mem_signedDecimal {n : Int} {c : Char} (h : c ∈ Text.signedDecimal n) :
    isRunChar c = true := by
  rcases Text.eq_or_isDigit_of_mem_signedDecimal h with rfl | hdigit
  · decide
  · -- No mark is a digit.
    have hne : ∀ mark : Char, mark.isDigit = false → c ≠ mark := by
      rintro mark hmark rfl
      rw [hmark] at hdigit
      cases hdigit
    rw [isRunChar_iff]
    refine ⟨?_, hne '"' rfl, ?_⟩
    · simp [isBlank, hne ' ' rfl, hne '\t' rfl, hne '\n' rfl, hne '\r' rfl]
    · unfold punctuation?
      split <;> first | rfl | cases hdigit

theorem ReadsAs.signedDecimal (n : Int) :
    ReadsAs (Text.signedDecimal n) [.scalar (integer n)] := by
  refine .word ?_ (fun _ => isRunChar_of_mem_signedDecimal) (readWord_signedDecimal n)
  rw [Text.signedDecimal]
  split
  · exact List.cons_ne_nil _ _
  · exact Text.decimal_ne_nil _

end Runs

namespace ReadsAs

theorem quoteText (text : List Char) :
    ReadsAs (quoteText text) [.scalar (string (some text))] :=
  fun _ _ _ => scan_quoteText text

/-- Texts that are separated by commas. -/
theorem intercalate {texts : List (List Char)} {lists : List (List Token)}
    (h : List.Forall₂ ReadsAs texts lists) :
    ReadsAs ([','].intercalate texts) ([.comma].intercalate lists) := by
  induction h with
  | nil => exact fun _ _ _ => rfl
  | @cons text list texts lists hfirst hothers ih =>
    cases hothers with
    | nil =>
      rw [List.intercalate_singleton, List.intercalate_singleton]
      exact hfirst
    | cons hnext hothers =>
      intro before rest hrest
      rw [List.intercalate_cons_cons, List.intercalate_cons_cons, List.append_assoc,
        List.append_assoc, hfirst _ _ (by rintro c ⟨⟩; rfl), List.singleton_append,
        scan_punctuation (show punctuation? ',' = some .comma from rfl), ih _ _ hrest]
      simp

/-- A text between brackets, which need not be followed by the end of a run. -/
theorem enclosed {first last : Char} {opening closing : Token}
    (hfirst : punctuation? first = some opening) (hlast : punctuation? last = some closing)
    (h : ReadsAs text written) :
    ReadsAs ([first] ++ text ++ [last]) ([opening] ++ written ++ [closing]) := by
  intro before rest _
  -- What is between the brackets is ended by the second one, whatever follows.
  have hend : EndsRun (last :: rest) := by
    rintro c ⟨⟩
    rw [hlast]
    rfl
  rw [List.append_assoc, List.append_assoc, List.singleton_append, List.singleton_append,
    scan_punctuation hfirst, h _ _ hend, scan_punctuation hlast]
  simp

/-- A key and its value. -/
theorem field (key : List Char) (h : ReadsAs text written) :
    ReadsAs (Json.quoteText key ++ ':' :: text)
      (.scalar (string (some key)) :: .colon :: written) := by
  intro before rest hrest
  rw [List.append_assoc, scan_quoteText, List.cons_append,
    scan_punctuation (show punctuation? ':' = some .colon from rfl), h _ _ hrest]
  simp

end ReadsAs

theorem forall₂_renderItems {items : List Json}
    (h : ∀ item ∈ items, ReadsAs item.render item.tokens) :
    List.Forall₂ ReadsAs (renderItems items) (itemTokens items) := by
  induction items with
  | nil => exact .nil
  | cons item items ih =>
    rw [List.forall_mem_cons] at h
    exact .cons h.1 (ih h.2)

theorem forall₂_renderFields {fields : List (JsonText × Json)}
    (hkeys : ∀ field ∈ fields, field.1.isSome = true)
    (hvalues : ∀ field ∈ fields, ReadsAs field.2.render field.2.tokens) :
    List.Forall₂ ReadsAs (renderFields fields) (fieldTokens fields) := by
  induction fields with
  | nil => exact .nil
  | cons field fields ih =>
    rw [List.forall_mem_cons] at hkeys hvalues
    obtain ⟨key, value⟩ := field
    obtain ⟨key, rfl⟩ := Option.isSome_iff_exists.mp hkeys.1
    exact .cons (.field key hvalues.1) (ih hkeys.2 hvalues.2)

/-- A written value is split into its tokens. -/
theorem readsAs_render {value : Json} (h : value.IsPlain) :
    ReadsAs value.render value.tokens := by
  induction h with
  | null => exact .word (by decide) (List.all_eq_true.mp rfl) rfl
  | bool value => cases value <;> exact .word (by decide) (List.all_eq_true.mp rfl) rfl
  | integer value => exact .signedDecimal value
  | text chars => exact .quoteText chars
  | array _ ih => exact .enclosed rfl rfl (.intercalate (forall₂_renderItems ih))
  | object hkeys _ ih => exact .enclosed rfl rfl (.intercalate (forall₂_renderFields hkeys ih))

end MotifSearch.Json
