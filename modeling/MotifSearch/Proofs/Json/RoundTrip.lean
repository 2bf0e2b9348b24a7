import MotifSearch.Json.Parse
import MotifSearch.Proofs.Json.Tokens

/-!
# Written values are read back

The tokens of a value are put together to the value again, wherever it stands: in an array or an
object that is open, or by itself. With the tokens of a written text this gives back every value
whose strings are texts and whose numbers are integers.

## Main definitions

* `Json.assembleAfter` — what some tokens are put together to after a complete value
* `Json.Assembles` — some tokens are put together to a value, wherever it stands

## Main results

* `assemble_items`, `assemble_fields` — what is between brackets is put together
* `assembles_tokens` — the tokens of a value are put together to it
* `parse_render` — a written value is read back
-/

namespace MotifSearch.Json

/-- What some tokens are put together to after a complete value. -/
def assembleAfter (value : Json) (frames : List Frame) (rest : List Token) :
    Except JsonError Json :=
  assemble (complete value frames).1 (complete value frames).2 rest

/-- Some tokens are put together to a value, whatever is open around it and follows it. -/
def Assembles (written : List Token) (value : Json) : Prop :=
  ∀ orEnd frames rest,
    assemble (.value orEnd) frames (written ++ rest) = assembleAfter value frames rest

variable {frames : List Frame} {rest : List Token}

/-- The items of an array, up to the closing bracket. -/
theorem assemble_items {items : List Json} (hitems : ∀ item ∈ items, Assembles item.tokens item)
    (hne : items ≠ []) (orEnd : Bool) (seen : List Json) :
    assemble (.value orEnd) (.array seen :: frames)
        ([.comma].intercalate (itemTokens items) ++ .closeArray :: rest) =
      assembleAfter (array (seen.reverse ++ items)) frames rest := by
  induction items generalizing orEnd seen with
  | nil => exact absurd rfl hne
  | cons item items ih =>
    rw [List.forall_mem_cons] at hitems
    obtain ⟨hitem, hitems⟩ := hitems
    -- An item is followed by the bracket, or by a comma, and then the array must not end.
    cases items with
    | nil =>
      have hlast : assembleAfter item (.array seen :: frames) (.closeArray :: rest) =
          assembleAfter (array (item :: seen).reverse) frames rest := rfl
      rw [itemTokens, itemTokens, List.intercalate_singleton, hitem, hlast, List.reverse_cons]
    | cons next items =>
      have hcomma : ∀ others, assembleAfter item (.array seen :: frames) (.comma :: others) =
          assemble (.value false) (.array (item :: seen) :: frames) others := fun _ => rfl
      have hothers := ih hitems (List.cons_ne_nil _ _) false (item :: seen)
      rw [itemTokens] at hothers
      rw [itemTokens, itemTokens, List.intercalate_cons_cons, List.append_assoc, List.append_assoc,
        hitem, List.singleton_append, hcomma, hothers]
      simp

/-- The fields of an object, up to the closing bracket. -/
theorem assemble_fields {fields : List (JsonText × Json)}
    (hvalues : ∀ field ∈ fields, Assembles field.2.tokens field.2) (hne : fields ≠ [])
    (orEnd : Bool) (seen : List (JsonText × Json)) (key : JsonText) :
    assemble (.key orEnd) (.object seen key :: frames)
        ([.comma].intercalate (fieldTokens fields) ++ .closeObject :: rest) =
      assembleAfter (object (seen.reverse ++ fields)) frames rest := by
  induction fields generalizing orEnd seen key with
  | nil => exact absurd rfl hne
  | cons field fields ih =>
    rw [List.forall_mem_cons] at hvalues
    obtain ⟨hvalue, hvalues⟩ := hvalues
    obtain ⟨name, value⟩ := field
    -- Up to the value it makes no difference whether the field is the first one.
    have hname : ∀ others, assemble (.key orEnd) (.object seen key :: frames)
        (.scalar (string name) :: .colon :: (value.tokens ++ others)) =
          assembleAfter value (.object seen name :: frames) others :=
      fun others => hvalue false (.object seen name :: frames) others
    cases fields with
    | nil =>
      have hlast : assembleAfter value (.object seen name :: frames) (.closeObject :: rest) =
          assembleAfter (object ((name, value) :: seen).reverse) frames rest := rfl
      rw [fieldTokens, fieldTokens, List.intercalate_singleton, List.cons_append,
        List.cons_append, hname, hlast, List.reverse_cons]
    | cons next fields =>
      have hcomma : ∀ others, assembleAfter value (.object seen name :: frames) (.comma :: others) =
          assemble (.key false) (.object ((name, value) :: seen) none :: frames) others :=
        fun _ => rfl
      have hothers := ih hvalues (List.cons_ne_nil _ _) false ((name, value) :: seen) none
      rw [fieldTokens] at hothers
      rw [fieldTokens, fieldTokens, List.intercalate_cons_cons, List.append_assoc,
        List.append_assoc, List.cons_append, List.cons_append, hname, List.singleton_append,
        hcomma, hothers]
      simp

/-- The tokens of a value are put together to it. -/
theorem assembles_tokens {value : Json} (h : value.IsPlain) : Assembles value.tokens value := by
  -- Only an array or an object without anything in it may end right after it has been opened.
  induction h with
  | null | bool | integer | text => exact fun _ _ _ => rfl
  | @array items _ ih =>
    intro orEnd frames rest
    rw [tokens, List.append_assoc, List.append_assoc, List.singleton_append]
    cases items with
    | nil => rfl
    | cons item items => exact assemble_items ih (List.cons_ne_nil _ _) true []
  | @object fields _ _ ih =>
    intro orEnd frames rest
    rw [tokens, List.append_assoc, List.append_assoc, List.singleton_append]
    cases fields with
    | nil => rfl
    | cons field fields => exact assemble_fields ih (List.cons_ne_nil _ _) true [] none

/-- A written value is read back. -/
theorem parse_render {value : Json} (h : value.IsPlain) : parse value.render = .ok value := by
  have hend : EndsRun [] := nofun
  have hscan : scan .between [] value.render = .ok value.tokens := by
    have hread := readsAs_render h [] [] hend
    rw [List.append_nil, List.append_nil] at hread
    rw [hread]
    exact congrArg Except.ok (List.reverse_reverse _)
  have hassemble := assembles_tokens h false [] []
  rw [List.append_nil] at hassemble
  rw [parse, hscan]
  exact hassemble

end MotifSearch.Json
