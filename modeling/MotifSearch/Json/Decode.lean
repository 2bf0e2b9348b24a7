import MotifSearch.Json.Basic

/-!
# Reading values out of JSON

A structure is given as an object with its fields, in any order and among other fields, or as an
array of its fields in their own order. A variant of a type is given by its name, or by an object
whose only field has that name and holds what belongs to the variant.

## Main definitions

* `Json.Decoder` — a way to read a type
* `Json.decodeText`, `Json.decodeBool`, `Json.decodeInt`, `Json.decodeList`, `Json.decodeOption` —
  the basic ones
* `Json.Record` — a structure, with `Record.required`, `Record.optional`, `Record.withDefault`
* `Json.Variant` — a variant, with `Variant.unit`, `Variant.content`

## Main results

* `decodeText_text`, `decodeNat_nat`, `decodeList_list`, `decodeOption_option`,
  `Record.ofJson_record` — what is written is read back
-/

namespace MotifSearch.Json

/-- A way to read a type. -/
abbrev Decoder (α : Type) := Json → Except JsonError α

/-- The text that a string holds. -/
def decodeText : Decoder (List Char)
  | string (some text) => .ok text
  | _ => .error .wrongKind

/-- A truth value. -/
def decodeBool : Decoder Bool
  | bool value => .ok value
  | _ => .error .wrongKind

/-- An integer within bounds. -/
def decodeInt (low high : Int) : Decoder Int
  | integer value => if low ≤ value ∧ value ≤ high then .ok value else .error .outOfRange
  | _ => .error .wrongKind

/-- A natural number up to a limit. -/
def decodeNat (limit : Nat) : Decoder Nat := fun json =>
  Int.toNat <$> decodeInt 0 limit json

/-- A number below 2^32. -/
def decodeUInt32 : Decoder UInt32 := fun json =>
  UInt32.ofNat <$> decodeNat (UInt32.size - 1) json

/-- A number below 2^8. -/
def decodeUInt8 : Decoder UInt8 := fun json =>
  UInt8.ofNat <$> decodeNat (UInt8.size - 1) json

/-- An array of values. -/
def decodeList {α : Type} (decode : Decoder α) : Decoder (List α)
  | array items => items.mapM decode
  | _ => .error .wrongKind

/-- A value, or null for none. -/
def decodeOption {α : Type} (decode : Decoder α) : Decoder (Option α)
  | null => .ok none
  | json => some <$> decode json

/-- The fields of a structure. -/
structure Record where
  /-- Whether they were given by their positions. -/
  positional : Bool
  fields : List (List Char × Json)

namespace Record

/-- The fields of a structure with the given field names. Other fields are ignored. -/
def ofJson (names : List String) : Decoder Record
  | object fields => do
    let fields ← fields.mapM fun
      | (some key, value) => .ok (key, value)
      | (none, _) => .error .wrongKind
    let known := fields.filter fun (key, _) => names.any (·.toList == key)
    if (known.map Prod.fst).Nodup then .ok ⟨false, known⟩ else .error .repeatedField
  | array items =>
    if items.length ≤ names.length then .ok ⟨true, (names.map String.toList).zip items⟩
    else .error .extraElement
  | _ => .error .wrongKind

/-- The value of a field, if it is given. -/
def find? (record : Record) (name : String) : Option Json :=
  record.fields.lookup name.toList

/-- A field that must be given. -/
def required {α : Type} (record : Record) (name : String) (decode : Decoder α) :
    Except JsonError α :=
  match record.find? name with
  | some json => decode json
  | none => .error .missingField

/-- A field that may be null. Where fields have names, it may also be missing. -/
def optional {α : Type} (record : Record) (name : String) (decode : Decoder α) :
    Except JsonError (Option α) :=
  match record.find? name with
  | some json => decodeOption decode json
  | none => if record.positional then .error .missingField else .ok none

/-- A field that has a default. -/
def withDefault {α : Type} (record : Record) (name : String) (decode : Decoder α)
    (default : α) : Except JsonError α :=
  match record.find? name with
  | some json => decode json
  | none => .ok default

end Record

/-- A variant: its name and what belongs to it. -/
structure Variant where
  name : List Char
  given : Option Json

namespace Variant

/-- A variant with or without something that belongs to it. -/
def ofJson : Decoder Variant
  | string (some name) => .ok ⟨name, none⟩
  | object [(some name, json)] => .ok ⟨name, some json⟩
  | _ => .error .wrongKind

/-- The value of a variant to which nothing belongs. -/
def unit {α : Type} (variant : Variant) (value : α) : Except JsonError α :=
  match variant.given with
  | none | some null => .ok value
  | some _ => .error .wrongKind

/-- What belongs to a variant. -/
def content {α : Type} (variant : Variant) (decode : Decoder α) : Except JsonError α :=
  match variant.given with
  | some json => decode json
  | none => .error .wrongKind

/-- The fields that belong to a variant, which have to have names. -/
def fields {α : Type} (variant : Variant) (names : List String)
    (decode : Record → Except JsonError α) : Except JsonError α :=
  match variant.given with
  | some (object fields) => do decode (← Record.ofJson names (object fields))
  | _ => .error .wrongKind

end Variant

/-- A variant without anything that belongs to it, by the names of all of them. -/
def decodeUnit {α : Type} (values : List α) (name : α → String) : Decoder α := fun json => do
  let variant ← Variant.ofJson json
  match values.find? fun value => (name value).toList == variant.name with
  | some value => variant.unit value
  | none => .error .unknownVariant

@[simp] theorem decodeText_text (chars : List Char) : decodeText (text chars) = .ok chars := rfl

@[simp] theorem decodeBool_bool (value : Bool) : decodeBool (bool value) = .ok value := rfl

theorem decodeNat_nat {n limit : Nat} (h : n ≤ limit) : decodeNat limit (nat n) = .ok n := by
  have hrange : (0 : Int) ≤ n ∧ (n : Int) ≤ limit := by omega
  rw [decodeNat, nat, decodeInt, if_pos hrange]
  rfl

@[simp] theorem decodeUInt32_nat (n : UInt32) : decodeUInt32 (nat n.toNat) = .ok n := by
  rw [decodeUInt32, decodeNat_nat (Nat.le_sub_one_of_lt n.toNat_lt)]
  exact congrArg Except.ok UInt32.ofNat_toNat

/-- An optional value is read back, unless null is what is written for a value. -/
theorem decodeOption_option {α : Type} {decode : Decoder α} {encode : α → Json}
    {value : Option α} (hnull : ∀ a ∈ value, encode a ≠ null)
    (h : ∀ a ∈ value, decode (encode a) = .ok a) :
    decodeOption decode (option encode value) = .ok value := by
  cases value with
  | none => rfl
  | some a =>
    have hdecode : decodeOption decode (encode a) = some <$> decode (encode a) := by
      unfold decodeOption
      split
      · next heq => exact absurd heq (hnull a rfl)
      · rfl
    rw [option, hdecode, h a rfl]
    rfl

/-- A list of results that are all known. -/
theorem mapM_map_eq_ok {α β γ : Type} {f : α → β} {decode : β → Except JsonError γ} {result : α → γ}
    {values : List α} (h : ∀ value ∈ values, decode (f value) = .ok (result value)) :
    (values.map f).mapM decode = .ok (values.map result) := by
  induction values with
  | nil => rfl
  | cons value values ih =>
    have hhead := h value (by simp)
    have htail := ih fun other hother => h other (by simp [hother])
    simp [hhead, htail, bind, Except.bind, pure, Except.pure]

theorem decodeList_list {α : Type} {decode : Decoder α} {encode : α → Json} {values : List α}
    (h : ∀ value ∈ values, decode (encode value) = .ok value) :
    decodeList decode (list encode values) = .ok values := by
  rw [list, decodeList, mapM_map_eq_ok h, List.map_id']

/-- The fields of a structure are found where they have different names. -/
theorem Record.ofJson_record {fields : List (String × Json)} (h : (fields.map Prod.fst).Nodup) :
    Record.ofJson (fields.map Prod.fst) (record fields) =
      .ok ⟨false, fields.map fun (name, value) => (name.toList, value)⟩ := by
  have hknown : ∀ field ∈ fields.map fun (name, value) => (name.toList, value),
      (fields.map Prod.fst).any (·.toList == field.1) = true := by
    intro field hfield
    obtain ⟨⟨name, value⟩, hmem, rfl⟩ := List.mem_map.mp hfield
    exact List.any_eq_true.mpr ⟨name, List.mem_map_of_mem hmem, beq_self_eq_true _⟩
  have hnames : ((fields.map fun (name, value) => (name.toList, value)).map Prod.fst).Nodup := by
    rw [List.map_map]
    exact List.pairwise_map.mpr ((List.pairwise_map.mp h).imp fun hne heq =>
      hne (String.toList_inj.mp heq))
  have hkeys := @mapM_map_eq_ok (String × Json) (JsonText × Json) (List Char × Json)
    (fun (name, value) => (some name.toList, value))
    (fun | (some key, value) => .ok (key, value) | (none, _) => .error .wrongKind)
    (fun (name, value) => (name.toList, value)) fields fun _ _ => rfl
  rw [record]
  simp only [ofJson, bind, Except.bind]
  rw [hkeys]
  dsimp only
  rw [List.filter_eq_self.mpr hknown, if_pos hnames]

end MotifSearch.Json
