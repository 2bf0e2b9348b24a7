import MotifSearch.Proofs.Xml.EndTags

/-!
# Elements without content

An element without content can be written as one tag, its attributes one after the other with a
blank before each of them. Where neither names nor values need anything special, the tag is read as
the element that was written, in the default namespace of the place where it stands.

## Main definitions

* `IsPlainName`, `isPlainValueChar` — names without a qualifier, and characters that stand for
  themselves in a value
* `PlainAttribute`, `PlainAttribute.text` — attributes, and how they are written
* `emptyTag`, `emptyElement` — a tag, and the element that it is read as

## Main results

* `Reader.run_attributes` — attributes are read in their order
* `Reader.run_emptyTag` — a tag adds its element
-/

namespace MotifSearch.Xml

open Builder (Action)

/-- A name without a qualifier. -/
structure IsPlainName (name : List Char) : Prop where
  chars : ∀ c ∈ name, isNameChar c = true
  ofText : QName.ofText name = .ok ⟨[], name⟩

/-- Whether a character stands for itself in a value. -/
def isPlainValueChar (c : Char) : Bool :=
  isAllowed c && (!isBlank c || c == ' ') && c != '"' && c != '<' && c != '&'

/-- An attribute without a qualifier that declares nothing, and whose value is written as it is. -/
structure PlainAttribute where
  name : List Char
  value : List Char
  plainName : IsPlainName name
  notDeclaration : name ≠ "xmlns".toList
  plainValue : ∀ c ∈ value, isPlainValueChar c = true

namespace PlainAttribute

/-- An attribute in a tag. -/
def text (given : PlainAttribute) : List Char :=
  ' ' :: (given.name ++ '=' :: '"' :: (given.value ++ ['"']))

/-- An attribute as it is given by a tag. -/
def written (given : PlainAttribute) : QName × List Char :=
  (⟨[], given.name⟩, given.value)

/-- An attribute of an element. -/
def resolved (given : PlainAttribute) : Name × List Char :=
  (⟨none, given.name⟩, given.value)

end PlainAttribute

/-- The tag of an element without content. -/
def emptyTag (name : List Char) (attributes : List PlainAttribute) : List Char :=
  '<' :: (name ++ (attributes.flatMap PlainAttribute.text ++ ['/', '>']))

/-- The element of a tag where the declarations in `scope` are in force. -/
def emptyElement (scope : Scope) (name : List Char) (attributes : List PlainAttribute) : Element :=
  .mk ⟨scope.find? [], name⟩ (attributes.map PlainAttribute.resolved) []

section Chars

variable {c : Char}

theorem isNameChar_of_isDigit (h : c.isDigit = true) : isNameChar c = true := by
  simp only [Char.isDigit, Bool.and_eq_true, decide_eq_true_eq] at h
  have hlow : 48 ≤ c.toNat := h.1
  have hhigh : c.toNat ≤ 57 := h.2
  simp [isNameChar, inRanges, nameRestRanges, hlow, hhigh]

/-- The characters of names stand for themselves. -/
theorem isPlainValueChar_of_isNameChar (h : isNameChar c = true) : isPlainValueChar c = true := by
  have hblank := isBlank_of_isNameChar h
  have hallowed : isAllowed c = true := by
    simp only [isNameChar, isNameStart, inRanges, nameStartRanges, nameRestRanges, List.any_cons,
      List.any_nil, Bool.or_eq_true, Bool.and_eq_true, decide_eq_true_eq, Bool.false_eq_true,
      or_false] at h
    -- No range of name characters reaches the two code points that are not allowed.
    simp only [isAllowed, hblank, Bool.false_or, Bool.and_eq_true, decide_eq_true_eq, bne_iff_ne]
    omega
  have hne : ∀ d, isNameChar d = false → (c != d) = true :=
    fun d hd => bne_iff_ne.mpr (ne_of_isNameChar h hd)
  rw [isPlainValueChar, hallowed, hblank, hne '"' (by decide), hne '<' (by decide),
    hne '&' (by decide)]
  rfl

theorem IsPlainName.ne_nil {name : List Char} (h : IsPlainName name) : name ≠ [] := by
  rintro rfl
  cases h.ofText

/-- A value of characters that stand for themselves is read as it is written. -/
theorem value_of_plain {value : List Char} (h : ∀ c ∈ value, isPlainValueChar c = true)
    (references : Nat) : plainReading.value value references = .ok (value, references) := by
  refine expandValue_of_plain [] entityDepthLimit false references fun c hc => ?_
  have hplain := h c hc
  simp only [isPlainValueChar, Bool.and_eq_true, Bool.or_eq_true, bne_iff_ne, Bool.not_eq_true',
    beq_iff_eq] at hplain
  obtain ⟨⟨⟨⟨-, hblank⟩, -⟩, -⟩, hreference⟩ := hplain
  exact ⟨hreference, fun hc => hblank.resolve_left (by simp [hc])⟩

end Chars

namespace Builder

variable {builder : Builder} {attributes : List PlainAttribute} {name : List Char}

theorem isDeclaration_written (given : PlainAttribute) :
    GivenAttributes.isDeclaration given.written = false := by
  have hqualifier : (([] : List Char) == "xmlns".toList) = false := by decide +kernel
  rw [GivenAttributes.isDeclaration, Bool.or_eq_false_iff]
  exact ⟨hqualifier, beq_eq_false_iff_ne.mpr given.notDeclaration⟩

/-- Plain attributes declare nothing. -/
theorem bindings_of_plain (attributes : List PlainAttribute) :
    GivenAttributes.bindings (attributes.map PlainAttribute.written) = .ok [] := by
  have hnone : (attributes.map PlainAttribute.written).filter GivenAttributes.isDeclaration = [] :=
    List.filter_eq_nil_iff.mpr fun given hgiven => by
      obtain ⟨plain, -, rfl⟩ := List.mem_map.mp hgiven
      simp [isDeclaration_written]
  rw [GivenAttributes.bindings, hnone]
  rfl

/-- Plain attributes have names without a namespace. -/
theorem resolve_of_plain (scope : Scope) (hnames : (attributes.map PlainAttribute.name).Nodup) :
    GivenAttributes.resolve (attributes.map PlainAttribute.written) scope =
      .ok (attributes.map PlainAttribute.resolved) := by
  have hall : (attributes.map PlainAttribute.written).filter
      (!GivenAttributes.isDeclaration ·) = attributes.map PlainAttribute.written :=
    List.filter_eq_self.mpr fun given hgiven => by
      obtain ⟨plain, -, rfl⟩ := List.mem_map.mp hgiven
      simp [isDeclaration_written]
  have hresolved : (attributes.map PlainAttribute.written).mapM (fun (given : QName × List Char) =>
      do .ok (← scope.attributeName given.1, given.2)) =
        (.ok (attributes.map PlainAttribute.resolved) : Except XmlError _) := by
    clear hall hnames
    induction attributes with
    | nil => rfl
    | cons given attributes ih =>
      have hname : scope.attributeName given.written.1 = .ok ⟨none, given.name⟩ :=
        Scope.attributeName_of_unqualified scope given.name
      rw [List.map_cons, List.mapM_cons, ih, hname]
      rfl
  have hdistinct : ((attributes.map PlainAttribute.resolved).map Prod.fst).Nodup := by
    rw [List.map_map]
    exact List.pairwise_map.mpr ((List.pairwise_map.mp hnames).imp fun hne h =>
      hne (congrArg Name.localPart h))
  rw [GivenAttributes.resolve, hall]
  rw [Except.bind_of_eq_ok hresolved, if_pos hdistinct]

/-- Plain attributes declare nothing, and their names are in no namespace. -/
theorem resolvePending_of_plain
    (hpending : builder.pending.reverse = attributes.map PlainAttribute.written)
    (hnames : (attributes.map PlainAttribute.name).Nodup) :
    builder.resolvePending = .ok (builder.scope, attributes.map PlainAttribute.resolved) := by
  rw [resolvePending, hpending, bindings_of_plain, Except.bind_of_eq_ok rfl, List.nil_append]
  exact Except.bind_of_eq_ok (resolve_of_plain builder.scope hnames) _

/-- A tag with plain attributes adds its element. -/
theorem run_emptyTag (hpending : builder.pending.reverse = attributes.map PlainAttribute.written)
    (hnames : (attributes.map PlainAttribute.name).Nodup) :
    Action.run builder (.emptyTag ⟨[], name⟩) =
      .ok (add { builder with pending := [] } (emptyElement builder.scope name attributes)) := by
  have hname : builder.scope.elementName ⟨[], name⟩ = .ok ⟨builder.scope.find? [], name⟩ := by
    rw [Scope.elementName]
    cases builder.scope.find? [] <;> rfl
  have hopen : builder.openTag ⟨[], name⟩ =
      .ok ⟨⟨⟨[], name⟩, builder.scope, ⟨builder.scope.find? [], name⟩,
        attributes.map PlainAttribute.resolved, []⟩ :: builder.frames, builder.roots, []⟩ := by
    rw [openTag, Except.bind_of_eq_ok (resolvePending_of_plain hpending hnames)]
    exact Except.bind_of_eq_ok hname _
  rw [Action.run, Except.bind_of_eq_ok hopen]
  simp [closeTag, resolvePending, Frame.close, emptyElement, bind, Except.bind]

end Builder

namespace Reader

variable {reader : Reader} {rest : List Char} {tag : QName}

theorem run_cons {next : Reader} {c : Char} (h : reader.step plainReading c = .ok next) :
    reader.run plainReading (c :: rest) = next.run plainReading rest :=
  Except.bind_of_eq_ok h _

/-- The name of an attribute, with the blank before it and the equals sign after it. -/
theorem run_attributeName {blank : Bool} {name : List Char} (hmode : reader.mode = .inTag tag blank)
    (hname : IsPlainName name) :
    reader.run plainReading (' ' :: (name ++ '=' :: rest)) =
      { reader with mode := .afterName tag ⟨[], name⟩ true }.run plainReading rest := by
  obtain ⟨c, tail, rfl⟩ := List.exists_cons_of_ne_nil hname.ne_nil
  obtain ⟨hc, htail⟩ := List.forall_mem_cons.mp hname.chars
  have hblank : reader.step plainReading ' ' = .ok { reader with mode := .inTag tag true } := by
    simp only [step, hmode]
    rfl
  have hfirst : { reader with mode := .inTag tag true }.step plainReading c =
      .ok { reader with mode := .attributeName tag [c] } := by
    simp only [step, stepInTag, isBlank_of_isNameChar hc, Bool.false_eq_true, if_false,
      ne_of_isNameChar hc (by decide : isNameChar '/' = false),
      ne_of_isNameChar hc (by decide : isNameChar '>' = false), hc, Bool.and_self, if_true]
    rfl
  have hequals : { reader with mode := .attributeName tag (tail.reverse ++ [c]) }.step
      plainReading '=' = .ok { reader with mode := .afterName tag ⟨[], c :: tail⟩ true } := by
    have hseen : (tail.reverse ++ [c]).reverse = c :: tail := by simp
    simp only [step, hseen, hname.ofText]
    rfl
  have hkept : { reader with mode := .attributeName tag [c] }.run plainReading
      (tail ++ '=' :: rest) =
        { reader with mode := .attributeName tag (tail.reverse ++ [c]) }.run plainReading
          ('=' :: rest) :=
    run_kept (fun _ _ _ hmode hc => by simp only [step, hmode, hc, if_true]; rfl) rfl htail
  rw [run_cons hblank, List.cons_append, run_cons hfirst, hkept, run_cons hequals]

/-- The value of an attribute with its quotation marks. -/
theorem run_attributeValue {name : QName} {value : List Char}
    (hmode : reader.mode = .afterName tag name true)
    (hvalue : ∀ c ∈ value, isPlainValueChar c = true) :
    reader.run plainReading ('"' :: (value ++ '"' :: rest)) =
      { reader with mode := .inTag tag false, builder := reader.builder.addAttribute name value
        }.run plainReading rest := by
  have hopen : reader.step plainReading '"' =
      .ok { reader with mode := .attributeValue tag name '"' [] } := by
    simp only [step, hmode]
    rfl
  have hkept : { reader with mode := .attributeValue tag name '"' [] }.run plainReading
      (value ++ '"' :: rest) =
        { reader with mode := .attributeValue tag name '"' (value.reverse ++ []) }.run plainReading
          ('"' :: rest) := by
    refine run_kept (fun reader seen c hmode hc => ?_) rfl hvalue
    simp only [isPlainValueChar, Bool.and_eq_true, bne_iff_ne] at hc
    obtain ⟨⟨⟨⟨hallowed, -⟩, hquote⟩, hangle⟩, -⟩ := hc
    simp only [step, hmode, stepValue, hquote, hangle, hallowed, if_false, if_true]
    rfl
  have hclose : { reader with mode := .attributeValue tag name '"' (value.reverse ++ []) }.step
      plainReading '"' = .ok { reader with
        mode := .inTag tag false
        builder := reader.builder.addAttribute name value } := by
    have hseen : (value.reverse ++ []).reverse = value := by simp
    simp only [step, stepValue, hseen, value_of_plain hvalue, if_true]
    rfl
  rw [run_cons hopen, hkept, run_cons hclose]

/-- An attribute is kept for the tag. -/
theorem run_attribute {blank : Bool} (hmode : reader.mode = .inTag tag blank)
    (given : PlainAttribute) :
    reader.run plainReading (given.text ++ rest) =
      { reader with
        mode := .inTag tag false
        builder := reader.builder.addAttribute ⟨[], given.name⟩ given.value
        }.run plainReading rest := by
  rw [PlainAttribute.text, List.cons_append, List.append_assoc, List.cons_append, List.cons_append,
    List.append_assoc, List.singleton_append, run_attributeName hmode given.plainName,
    run_attributeValue rfl given.plainValue]

/-- Attributes are kept for the tag, the latest first. -/
theorem run_attributes (attributes : List PlainAttribute) (hmode : reader.mode = .inTag tag false) :
    reader.run plainReading (attributes.flatMap PlainAttribute.text ++ rest) =
      { reader with builder := { reader.builder with
        pending := (attributes.map PlainAttribute.written).reverse ++ reader.builder.pending }
        }.run plainReading rest := by
  induction attributes generalizing reader with
  | nil => rfl
  | cons given attributes ih =>
    rw [List.flatMap_cons, List.append_assoc, run_attribute hmode, ih rfl, ← hmode]
    simp [Builder.addAttribute, PlainAttribute.written]

/-- The name of a tag, if something follows that does not belong to it. -/
theorem run_tagName {brackets : Nat} {name : List Char} {c : Char}
    (hmode : reader.mode = .text brackets) (hname : IsPlainName name) (hc : isNameChar c = false) :
    reader.run plainReading ('<' :: (name ++ c :: rest)) =
      { reader with mode := .inTag ⟨[], name⟩ false }.run plainReading (c :: rest) := by
  obtain ⟨first, tail, rfl⟩ := List.exists_cons_of_ne_nil hname.ne_nil
  obtain ⟨hfirst, htail⟩ := List.forall_mem_cons.mp hname.chars
  have hopen : reader.step plainReading '<' = .ok { reader with mode := .opened } := by
    simp only [step, hmode]
    rfl
  have hbegin : { reader with mode := .opened }.step plainReading first =
      .ok { reader with mode := .startName [first] } := by
    simp only [step, stepOpened, ne_of_isNameChar hfirst (by decide : isNameChar '!' = false),
      ne_of_isNameChar hfirst (by decide : isNameChar '?' = false),
      ne_of_isNameChar hfirst (by decide : isNameChar '/' = false), hfirst, if_false, if_true]
    rfl
  have hkept : { reader with mode := .startName [first] }.run plainReading (tail ++ c :: rest) =
      { reader with mode := .startName (tail.reverse ++ [first]) }.run plainReading (c :: rest) :=
    run_kept (fun _ _ _ hmode hc => by simp only [step, hmode, hc, if_true]; rfl) rfl htail
  -- The character that ends the name is read as if the reader were already behind the name.
  have hend : { reader with mode := .startName (tail.reverse ++ [first]) }.step plainReading c =
      { reader with mode := .inTag ⟨[], first :: tail⟩ false }.step plainReading c := by
    have hseen : (tail.reverse ++ [first]).reverse = first :: tail := by simp
    have htag : tagName (first :: tail) = .ok ⟨[], first :: tail⟩ := by
      have hqualifier : ([] : List Char) ≠ "xmlns".toList := by decide +kernel
      rw [tagName, Except.bind_of_eq_ok hname.ofText]
      exact if_neg hqualifier
    simp only [step, hc, Bool.false_eq_true, if_false, hseen, htag]
    rfl
  rw [run_cons hopen, List.cons_append, run_cons hbegin, hkept, run, hend, run]

/-- The end of a tag that is start tag and end tag. -/
theorem run_tagEnd {level : Nat} {builder : Builder} (hmode : reader.mode = .inTag tag false)
    (hlevel : reader.level = level + 1)
    (hbuilder : Action.run reader.builder (.emptyTag tag) = .ok builder) :
    reader.run plainReading ('/' :: '>' :: rest) =
      { reader with mode := .text 0, begun := true, builder }.run plainReading rest := by
  have hslash : reader.step plainReading '/' = .ok { reader with mode := .closingTag tag } := by
    simp only [step, hmode]
    rfl
  have hangle : { reader with mode := .closingTag tag }.step plainReading '>' =
      .ok { reader with mode := .text 0, begun := true, builder } := by
    have hempty := emptyElement_eq { reader with mode := .closingTag tag } hlevel tag
    rw [hbuilder, ← hlevel] at hempty
    simp only [step, if_true]
    exact hempty
  rw [run_cons hslash, run_cons hangle]

/-- What follows a name in a tag does not belong to the name. -/
private theorem exists_cons_of_attributes (attributes : List PlainAttribute) (rest : List Char) :
    ∃ c more, attributes.flatMap PlainAttribute.text ++ '/' :: '>' :: rest = c :: more ∧
      isNameChar c = false := by
  cases attributes with
  | nil => exact ⟨'/', _, rfl, by decide⟩
  | cons given attributes => exact ⟨' ', _, rfl, by decide⟩

/-- A tag adds its element to the elements around it. -/
theorem run_emptyTag {brackets level : Nat} {name : List Char} {attributes : List PlainAttribute}
    (hmode : reader.mode = .text brackets) (hlevel : reader.level = level + 1)
    (hpending : reader.builder.pending = []) (hname : IsPlainName name)
    (hnames : (attributes.map PlainAttribute.name).Nodup) :
    reader.run plainReading (emptyTag name attributes ++ rest) =
      { reader with
        mode := .text 0
        begun := true
        builder := reader.builder.add (emptyElement reader.builder.scope name attributes)
        }.run plainReading rest := by
  obtain ⟨c, more, hmore, hc⟩ := exists_cons_of_attributes attributes rest
  have htext : emptyTag name attributes ++ rest = '<' :: (name ++ c :: more) := by
    rw [← hmore]
    simp [emptyTag]
  rw [htext, run_tagName hmode hname hc, ← hmore, run_attributes attributes rfl]
  refine Eq.trans (run_tagEnd rfl hlevel (Builder.run_emptyTag (by simp [hpending]) hnames)) ?_
  obtain ⟨mode, level, begun, ⟨frames, roots, pending⟩, references⟩ := reader
  obtain rfl := hpending
  rfl

end Reader

end MotifSearch.Xml
