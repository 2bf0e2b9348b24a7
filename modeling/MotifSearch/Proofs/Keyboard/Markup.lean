import MotifSearch.Proofs.Keyboard.Reached
import MotifSearch.Proofs.Search.Choice
import MotifSearch.Proofs.Xml.EmptyTags

/-!
# The markup of entered notes

The markup of the notes on a keyboard is read as the pattern of these notes, one after the other,
with everything that has been entered. Which note is selected makes no difference, since no pattern
has a colour.

## Main definitions

* `EnteredNote.pattern`, `Keyboard.pattern` — what the notes ask for
* `EnteredNote.attributes` — the attributes of the element of a note

## Main results

* `EnteredNote.noteMei_eq_emptyTag` — a note is written as one tag
* `Markup.readsAs_emptyTags` — tags in the layer are read as its elements
* `EnteredNote.ofElement_element` — the element of a note asks for the note
* `Keyboard.ofMarkup_mei` — the markup is read as the pattern
* `Keyboard.markup_round_trip` — what comes of the markup when it is compiled
-/

namespace MotifSearch

open Xml (PlainAttribute IsPlainName isPlainValueChar emptyTag emptyElement)

namespace EnteredNote

/-- What a note asks for. -/
def pattern (note : EnteredNote) : NotePattern where
  pitch := .exact ⟨note.letter, note.octave, .exact (note.accidental.getD .plain)⟩
  duration := .exact ⟨.denominator note.duration, if note.dotted then 1 else 0⟩

/-- The names of the attributes of a note. -/
def attributeNames : List (List Char) :=
  ["pname".toList, "dur".toList, "oct".toList, "dots".toList, "accid".toList, "color".toList]

theorem isPlainName_of_mem_attributeNames {name : List Char} (h : name ∈ attributeNames) :
    IsPlainName name ∧ name ≠ "xmlns".toList := by
  simp only [attributeNames, List.mem_cons, List.not_mem_nil, or_false] at h
  rcases h with rfl | rfl | rfl | rfl | rfl | rfl <;>
    exact ⟨⟨List.all_eq_true.mp (by decide +kernel), rfl⟩, by decide +kernel⟩

/-- An attribute of a note. -/
def attributeNamed (name : String) (value : List Char) (hname : name.toList ∈ attributeNames)
    (hvalue : value.all isPlainValueChar = true) : PlainAttribute where
  name := name.toList
  value
  plainName := (isPlainName_of_mem_attributeNames hname).1
  notDeclaration := (isPlainName_of_mem_attributeNames hname).2
  plainValue := List.all_eq_true.mp hvalue

open Keyboard (meiAttribute)

theorem text_attributeNamed (name : String) (value : List Char) (hname hvalue) :
    (attributeNamed name value hname hvalue).text = meiAttribute name value := by
  simp [attributeNamed, PlainAttribute.text, meiAttribute]

theorem all_isPlainValueChar_decimal (n : Nat) :
    (Text.decimal n).all isPlainValueChar = true :=
  List.all_eq_true.mpr fun _ h =>
    Xml.isPlainValueChar_of_isNameChar (Xml.isNameChar_of_isDigit (Text.isDigit_of_mem_decimal h))

theorem all_isPlainValueChar_octave (octave : Octave) :
    octave.text.all isPlainValueChar = true := by
  refine List.all_eq_true.mpr fun c h => ?_
  rcases Text.eq_or_isDigit_of_mem_signedDecimal h with rfl | h
  · decide
  · exact Xml.isPlainValueChar_of_isNameChar (Xml.isNameChar_of_isDigit h)

/-- The attributes that every note has. -/
def givenAttributes (note : EnteredNote) : List PlainAttribute :=
  [attributeNamed "pname" [note.letter.char] (by decide +kernel) (by cases note.letter <;> decide),
    attributeNamed "dur" (Text.decimal note.duration.toNat) (by decide +kernel)
      (all_isPlainValueChar_decimal _),
    attributeNamed "oct" note.octave.text (by decide +kernel) (all_isPlainValueChar_octave _)]

/-- The attribute of a dot. -/
def dotAttributes (dotted : Bool) : List PlainAttribute :=
  if dotted then [attributeNamed "dots" ['1'] (by decide +kernel) (by decide)] else []

/-- The attribute of an accidental, if there is a code for it. -/
def accidentalAttributes : Option Accidental → List PlainAttribute
  | none | some .plain => []
  | some accidental => [attributeNamed "accid" accidental.code (by decide +kernel)
      (by cases accidental <;> decide)]

/-- The attribute of the selected note. -/
def colorAttributes (isSelected : Bool) : List PlainAttribute :=
  if isSelected then [attributeNamed "color" "red".toList (by decide +kernel) (by decide +kernel)]
  else []

/-- The attributes of the element of a note. -/
def attributes (note : EnteredNote) (isSelected : Bool) : List PlainAttribute :=
  note.givenAttributes ++ (dotAttributes note.dotted ++
    (accidentalAttributes note.accidental ++ colorAttributes isSelected))

theorem text_givenAttributes (note : EnteredNote) :
    note.givenAttributes.flatMap PlainAttribute.text =
      meiAttribute "pname" [note.letter.char] ++ (meiAttribute "dur"
        (Text.decimal note.duration.toNat) ++ meiAttribute "oct" note.octave.text) := by
  rw [givenAttributes, List.flatMap_cons, List.flatMap_cons, List.flatMap_cons, List.flatMap_nil,
    List.append_nil, text_attributeNamed, text_attributeNamed, text_attributeNamed]

theorem text_dotAttributes (dotted : Bool) : (dotAttributes dotted).flatMap PlainAttribute.text =
    if dotted then meiAttribute "dots" ['1'] else [] := by
  cases dotted <;> simp [dotAttributes, text_attributeNamed]

theorem text_accidentalAttributes (accidental : Option Accidental) :
    (accidentalAttributes accidental).flatMap PlainAttribute.text =
      match accidental.bind Accidental.code? with
      | some code => meiAttribute "accid" code
      | none => [] := by
  cases accidental with
  | none => rfl
  | some accidental =>
    cases accidental <;>
      simp [accidentalAttributes, text_attributeNamed, Accidental.code, Accidental.code?]

theorem text_colorAttributes (isSelected : Bool) :
    (colorAttributes isSelected).flatMap PlainAttribute.text =
      if isSelected then meiAttribute "color" "red".toList else [] := by
  cases isSelected <;> simp [colorAttributes, text_attributeNamed]

/-- A note is written as one tag. -/
theorem noteMei_eq_emptyTag (note : EnteredNote) (isSelected : Bool) :
    Keyboard.noteMei note isSelected = emptyTag "note".toList (note.attributes isSelected) := by
  have htag : "<note".toList = '<' :: "note".toList := by
    rw [String.toList_ofList, String.toList_ofList]
  rw [emptyTag, attributes, List.flatMap_append, List.flatMap_append, List.flatMap_append,
    text_givenAttributes, text_dotAttributes, text_accidentalAttributes, text_colorAttributes]
  unfold Keyboard.noteMei
  dsimp only
  rw [htag]
  -- Both sides ask for the code of the accidental, and agree in each case.
  cases note.accidental.bind Accidental.code? <;>
    simp only [List.append_assoc, List.cons_append]

end EnteredNote

namespace Markup

open Xml (Element Scope plainReading)

section EmptyTags

variable {name : List Char} {attributes : List PlainAttribute}

/-- A tag in the layer adds its element to the layer. -/
theorem run_emptyTag {brackets : Nat} {elements : List Element} (hname : IsPlainName name)
    (hnames : (attributes.map PlainAttribute.name).Nodup) (rest : List Char) :
    (inLayer brackets elements).run plainReading (emptyTag name attributes ++ rest) =
      (inLayer 0 (elements ++ [emptyElement wrapperScope name attributes])).run plainReading
        rest := by
  rw [Xml.Reader.run_emptyTag rfl rfl rfl hname hnames, inLayer, inLayer, layerFrame_append]
  rfl

/-- Tags in the layer are read as its elements. -/
theorem readsAs_emptyTags {tags : List (List PlainAttribute)} (hname : IsPlainName name)
    (htags : ∀ attributes ∈ tags, (attributes.map PlainAttribute.name).Nodup) :
    ReadsAs (tags.flatMap (emptyTag name)) (tags.map (emptyElement wrapperScope name)) := by
  -- The induction needs that there may be elements in the layer already.
  suffices hrun : ∀ brackets elements, ∃ last, (inLayer brackets elements).run plainReading
      (tags.flatMap (emptyTag name)) =
        .ok (inLayer last (elements ++ tags.map (emptyElement wrapperScope name))) by
    exact hrun 0 []
  induction tags with
  | nil => exact fun brackets elements => ⟨brackets, by rw [List.map_nil, List.append_nil]; rfl⟩
  | cons attributes tags ih =>
    intro brackets elements
    obtain ⟨hattributes, htags⟩ := List.forall_mem_cons.mp htags
    obtain ⟨last, hlast⟩ := ih htags 0 (elements ++ [emptyElement wrapperScope name attributes])
    refine ⟨last, ?_⟩
    rw [List.flatMap_cons, run_emptyTag hname hattributes, hlast, List.append_assoc,
      List.singleton_append, List.map_cons]

variable (scope : Scope)

/-- An attribute of the element of a tag. -/
theorem attribute?_emptyElement (key : String) :
    attribute? (emptyElement scope name attributes) key =
      (attributes.find? (key.toList == ·.name)).map PlainAttribute.value := by
  rw [attribute?, emptyElement, Element.attribute?, Element.attributes]
  induction attributes with
  | nil => rfl
  | cons given attributes ih =>
    have hname : ((⟨none, key.toList⟩ : Xml.Name) == ⟨none, given.name⟩) =
        (key.toList == given.name) := by
      rw [Bool.eq_iff_iff]
      simp
    rw [List.map_cons, PlainAttribute.resolved, List.lookup_cons, List.find?_cons, ih, hname]
    cases key.toList == given.name <;> rfl

theorem flag_emptyElement (key : String) :
    flag (emptyElement scope name attributes) key = false := by
  have hnone : (attributes.map PlainAttribute.resolved).lookup ⟨some queryUri, key.toList⟩ = none :=
    List.lookup_eq_none_iff.mpr fun given hgiven => by
      obtain ⟨plain, -, rfl⟩ := List.mem_map.mp hgiven
      simp [PlainAttribute.resolved]
  rw [flag, emptyElement, Element.attribute?, Element.attributes, hnone]
  rfl

end EmptyTags

end Markup

namespace EnteredNote

open Markup (attribute? flag attribute?_emptyElement flag_emptyElement wrapperScope)

/-- The element of a note. -/
def element (note : EnteredNote) (isSelected : Bool) : Xml.Element :=
  emptyElement wrapperScope "note".toList (note.attributes isSelected)

variable (note : EnteredNote) (isSelected : Bool)

theorem attribute?_pname :
    attribute? (note.element isSelected) "pname" = some [note.letter.char] := by
  rw [element, attribute?_emptyElement]
  rfl

theorem attribute?_dur :
    attribute? (note.element isSelected) "dur" = some (Text.decimal note.duration.toNat) := by
  rw [element, attribute?_emptyElement]
  rfl

theorem attribute?_oct : attribute? (note.element isSelected) "oct" = some note.octave.text := by
  rw [element, attribute?_emptyElement]
  rfl

theorem attribute?_dots :
    attribute? (note.element isSelected) "dots" = if note.dotted then some ['1'] else none := by
  rw [element, attribute?_emptyElement, attributes]
  cases note.dotted with
  | true => rfl
  | false =>
    rcases note.accidental with _ | _ | _ | _ | _ | _ | _ | _ <;> cases isSelected <;> rfl

theorem attribute?_accid :
    attribute? (note.element isSelected) "accid" = note.accidental.bind Accidental.code? := by
  rw [element, attribute?_emptyElement, attributes]
  cases note.dotted <;> rcases note.accidental with _ | _ | _ | _ | _ | _ | _ | _ <;>
    cases isSelected <;> rfl

theorem letterOfElement_element : NotePattern.letterOfElement (note.element isSelected) =
    .ok (note.letter, note.octave) := by
  have hletter : readAttribute .letter PitchLetter.ofText? (note.element isSelected) =
      .ok (some note.letter) :=
    readAttribute_of_some (note.attribute?_pname isSelected) note.letter.ofText?_char
  have hoctave : readAttribute .octave Octave.ofText? (note.element isSelected) =
      .ok (some note.octave) :=
    readAttribute_of_some (note.attribute?_oct isSelected) note.octave.ofText?_text
  rw [NotePattern.letterOfElement, Except.bind_of_eq_ok hletter]
  exact Except.bind_of_eq_ok hoctave _

theorem accidentalOfElement_element : NotePattern.accidentalOfElement (note.element isSelected) =
    .ok (.exact (note.accidental.getD .plain)) := by
  have haccidental : ∃ read,
      readAttribute .accidental Accidental.ofText? (note.element isSelected) = .ok read ∧
        read.getD .plain = note.accidental.getD .plain := by
    have hattribute := note.attribute?_accid isSelected
    cases haccidental : note.accidental with
    | none =>
      rw [haccidental] at hattribute
      exact ⟨none, readAttribute_of_none hattribute, rfl⟩
    | some accidental =>
      rw [haccidental, Option.bind_some] at hattribute
      cases hcode : accidental.code? with
      | none =>
        rw [hcode] at hattribute
        refine ⟨none, readAttribute_of_none hattribute, ?_⟩
        cases accidental <;> first | rfl | cases hcode
      | some code =>
        have hread := accidental.ofText?_code
        rw [Accidental.code, hcode, Option.getD_some] at hread
        rw [hcode] at hattribute
        exact ⟨some accidental, readAttribute_of_some hattribute hread, rfl⟩
  obtain ⟨read, hread, hplain⟩ := haccidental
  rw [NotePattern.accidentalOfElement, element, flag_emptyElement, if_neg Bool.false_ne_true,
    ← element, Except.bind_of_eq_ok hread, hplain]

theorem durationOfElement_element (h : note.duration ≠ 0) :
    NotePattern.durationOfElement (note.element isSelected) = .ok note.pattern.duration := by
  have hcode : readAttribute .duration DurationCode.ofText? (note.element isSelected) =
      .ok (some (.denominator note.duration)) :=
    readAttribute_of_some (note.attribute?_dur isSelected) (DurationCode.ofText?_decimal h)
  have hdots : readAttribute .dots NotePattern.dotCount (note.element isSelected) =
      .ok (if note.dotted then some 1 else none) := by
    have hattribute := note.attribute?_dots isSelected
    cases hdotted : note.dotted with
    | false =>
      rw [hdotted] at hattribute
      exact readAttribute_of_none hattribute
    | true =>
      rw [hdotted] at hattribute
      exact readAttribute_of_some hattribute rfl
  rw [NotePattern.durationOfElement, element, flag_emptyElement, if_neg Bool.false_ne_true,
    ← element, Except.bind_of_eq_ok hcode]
  refine (Except.bind_of_eq_ok hdots _).trans ?_
  rw [pattern]
  cases note.dotted <;> rfl

/-- The element of a note asks for the note. -/
theorem ofElement_element (h : note.duration ≠ 0) :
    NotePattern.ofElement (note.element isSelected) = .ok note.pattern := by
  have hpitch : NotePattern.pitchOfElement (note.element isSelected) = .ok note.pattern.pitch := by
    rw [NotePattern.pitchOfElement, element, flag_emptyElement, if_neg Bool.false_ne_true,
      ← element, Except.bind_of_eq_ok (note.letterOfElement_element isSelected)]
    exact Except.bind_of_eq_ok (note.accidentalOfElement_element isSelected) _
  rw [NotePattern.ofElement, Except.bind_of_eq_ok hpitch]
  exact Except.bind_of_eq_ok (note.durationOfElement_element isSelected h) _

theorem kind_element : Markup.kind (note.element isSelected) = .note := by
  have hquery : Markup.isQuery (note.element isSelected) = false := by
    change (some Markup.meiUri == some Markup.queryUri) = false
    decide +kernel
  rw [Markup.kind, hquery, if_neg Bool.false_ne_true]
  exact if_pos rfl

/-- No attribute is written twice. -/
theorem nodup_names_attributes : ((note.attributes isSelected).map PlainAttribute.name).Nodup := by
  have hdots : ((dotAttributes note.dotted).map PlainAttribute.name).Sublist ["dots".toList] := by
    cases note.dotted
    · exact List.nil_sublist _
    · exact .refl _
  have haccidental : ((accidentalAttributes note.accidental).map PlainAttribute.name).Sublist
      ["accid".toList] := by
    rcases note.accidental with _ | _ | _
    · exact List.nil_sublist _
    · exact List.nil_sublist _
    all_goals exact .refl _
  have hcolor : ((colorAttributes isSelected).map PlainAttribute.name).Sublist
      ["color".toList] := by
    cases isSelected
    · exact List.nil_sublist _
    · exact .refl _
  have hnames : ((note.attributes isSelected).map PlainAttribute.name).Sublist attributeNames := by
    rw [attributes, List.map_append, List.map_append, List.map_append]
    exact (List.Sublist.refl _).append (hdots.append (haccidental.append hcolor))
  exact hnames.nodup (by decide +kernel)

end EnteredNote

namespace Keyboard

open Markup (isDocument ReadsAs wrapperScope)

variable {keyboard : Keyboard}

/-- The attributes of the elements of the notes. -/
def tags (keyboard : Keyboard) : List (List PlainAttribute) :=
  keyboard.notes.mapIdx fun index note => note.attributes (keyboard.selected == some index)

theorem mei_eq_flatMap (keyboard : Keyboard) :
    keyboard.mei = keyboard.tags.flatMap (emptyTag "note".toList) := by
  simp only [mei, tags, List.flatMap_def, List.mapIdx_eq_zipIdx_map, List.map_map,
    EnteredNote.noteMei_eq_emptyTag, Function.comp_def]

theorem map_emptyElement_tags (keyboard : Keyboard) :
    keyboard.tags.map (emptyElement wrapperScope "note".toList) =
      keyboard.notes.mapIdx fun index note => note.element (keyboard.selected == some index) := by
  simp only [tags, List.mapIdx_eq_zipIdx_map, List.map_map, EnteredNote.element,
    Function.comp_def]

/-- The markup is read as the elements of the notes. -/
theorem readsAs_mei (keyboard : Keyboard) : ReadsAs keyboard.mei
    (keyboard.notes.mapIdx fun index note => note.element (keyboard.selected == some index)) := by
  have hname : IsPlainName "note".toList := ⟨List.all_eq_true.mp (by decide +kernel), rfl⟩
  rw [mei_eq_flatMap, ← map_emptyElement_tags]
  refine Markup.readsAs_emptyTags hname fun attributes hattributes => ?_
  obtain ⟨index, hindex, rfl⟩ := List.mem_mapIdx.mp hattributes
  exact EnteredNote.nodup_names_attributes _ _

/-- The markup is no document of its own. -/
theorem isDocument_mei (keyboard : Keyboard) : isDocument keyboard.mei = false := by
  rw [mei_eq_flatMap]
  cases keyboard.tags with
  | nil => decide +kernel
  | cons attributes tags =>
    have htag : (attributes :: tags).flatMap (emptyTag "note".toList) =
        '<' :: 'n' :: ((attributes :: tags).flatMap (emptyTag "note".toList)).drop 2 := by
      rw [List.flatMap_cons, emptyTag]
      rfl
    rw [htag]
    rfl

/-- The elements of notes are one branch. -/
theorem branchesOfElements_notes {notes : List EnteredNote} (isSelected : Nat → Bool)
    (h : ∀ note ∈ notes, note.duration ≠ 0) :
    Pattern.branchesOfElements (notes.mapIdx fun index note => note.element (isSelected index)) =
      .ok [notes.map fun note => .note note.pattern] := by
  induction notes generalizing isSelected with
  | nil => rfl
  | cons note notes ih =>
    obtain ⟨hnote, hnotes⟩ := List.forall_mem_cons.mp h
    rw [List.mapIdx_cons, Pattern.branchesOfElements_cons, Pattern.ofElement_eq,
      EnteredNote.kind_element, if_neg (by decide), EnteredNote.ofElement_element _ _ hnote,
      ih (fun index => isSelected (index + 1)) hnotes]
    rfl

/-- What the notes ask for, one after the other. -/
def pattern (keyboard : Keyboard) : Pattern :=
  .sequence (keyboard.notes.map fun note => .note note.pattern)

/-- The markup is read as the pattern of the notes. -/
theorem ofMarkup_mei (hnotes : keyboard.notes ≠ [])
    (h : ∀ note ∈ keyboard.notes, note.duration ≠ 0) :
    Pattern.ofMarkup keyboard.mei = .ok keyboard.pattern := by
  obtain ⟨note, notes, hcons⟩ := List.exists_cons_of_ne_nil hnotes
  rw [Pattern.ofMarkup_of_readsAs (isDocument_mei keyboard) (readsAs_mei keyboard)]
  refine Pattern.ofContainer_layer_eq_ok_iff.mpr ⟨_, branchesOfElements_notes _ h, ?_, rfl⟩
  rw [hcons]
  rfl

theorem ofMarkup_mei_compiled (hnotes : keyboard.notes ≠ [])
    (h : ∀ note ∈ keyboard.notes, note.duration ≠ 0) :
    CompiledPattern.ofMarkup keyboard.mei = .ok keyboard.pattern.compile := by
  rw [CompiledPattern.ofMarkup, ofMarkup_mei hnotes h]
  rfl

/-- The report about a quarter sharp. -/
def quarterSharpReport : Diagnostic :=
  (Fallback.unspellableAccidental .quarterSharp).diagnostic

theorem map_diagnostic_fallbacks (note : EnteredNote) :
    note.pattern.fallbacks.map Fallback.diagnostic =
      if note.accidental = some .quarterSharp then [quarterSharpReport] else [] := by
  obtain ⟨letter, octave, duration, dotted, accidental⟩ := note
  rcases accidental with _ | _ | _ | _ | _ | _ | _ | _ <;> rfl

/-- Of the notes, quarter sharps are reported and nothing else. -/
theorem diagnostics_pattern (keyboard : Keyboard) :
    keyboard.pattern.compile.diagnostics =
      (keyboard.notes.filter (·.accidental = some .quarterSharp)).map
        fun _ => quarterSharpReport := by
  have hreports : keyboard.pattern.compile.diagnostics = (Pattern.sequenceFallbacks
      (keyboard.notes.map fun note => .note note.pattern)).map Fallback.diagnostic := by
    rw [Pattern.compile, pattern, Pattern.fallbacks]
  rw [hreports]
  induction keyboard.notes with
  | nil => rfl
  | cons note notes ih =>
    rw [List.map_cons, Pattern.sequenceFallbacks, List.map_append, ih, Pattern.fallbacks,
      map_diagnostic_fallbacks, List.filter_cons]
    by_cases hsharp : note.accidental = some .quarterSharp <;> simp [hsharp]

theorem notes_selectNext : keyboard.selectNext.notes = keyboard.notes := by
  unfold selectNext
  split
  · split <;> rfl
  · rfl

theorem notes_selectPrevious : keyboard.selectPrevious.notes = keyboard.notes := by
  unfold selectPrevious
  split <;> rfl

/-- No note of a keyboard that is reached has the duration zero. -/
theorem IsReached.duration_ne_zero (h : keyboard.IsReached) :
    ∀ note ∈ keyboard.notes, note.duration ≠ 0 := by
  have hdurations : 0 ∉ durations := by decide
  exact fun note hnote hzero => hdurations (hzero ▸ (h.isRegular.notes note hnote).duration)

/-- The markup of notes, reached by keys or not, is read as the pattern of exactly these notes, as
long as no duration is zero. It compiles to the compiled pattern of them, which reports the quarter
sharps and nothing else; selecting another note does not change it. -/
theorem markup_round_trip (hnotes : keyboard.notes ≠ [])
    (hduration : keyboard.IsReached ∨ ∀ note ∈ keyboard.notes, note.duration ≠ 0) :
    Pattern.ofMarkup keyboard.mei =
      .ok (.sequence (keyboard.notes.map fun note => .note note.pattern)) ∧
    CompiledPattern.ofMarkup keyboard.mei = .ok keyboard.pattern.compile ∧
    keyboard.pattern.compile.diagnostics =
      (keyboard.notes.filter (·.accidental = some .quarterSharp)).map
        (fun _ => quarterSharpReport) ∧
    (∀ selected, CompiledPattern.ofMarkup { keyboard with selected : Keyboard }.mei =
      .ok keyboard.pattern.compile) ∧
    CompiledPattern.ofMarkup keyboard.selectNext.mei = .ok keyboard.pattern.compile ∧
    CompiledPattern.ofMarkup keyboard.selectPrevious.mei = .ok keyboard.pattern.compile := by
  have hpositive := hduration.elim IsReached.duration_ne_zero id
  -- The compiled pattern depends on the notes only.
  have hcompiled : ∀ other : Keyboard, other.notes = keyboard.notes →
      CompiledPattern.ofMarkup other.mei = .ok keyboard.pattern.compile := by
    intro other hother
    have hsame : other.pattern = keyboard.pattern := by rw [pattern, pattern, hother]
    rw [← hsame]
    exact ofMarkup_mei_compiled (by rwa [hother]) (by rwa [hother])
  exact ⟨ofMarkup_mei hnotes hpositive, hcompiled keyboard rfl, diagnostics_pattern keyboard,
    fun _ => hcompiled _ rfl, hcompiled _ notes_selectNext, hcompiled _ notes_selectPrevious⟩

/-- Two notes at both ends of the octaves, the first one with a quarter sharp. -/
def extremes : Keyboard :=
  { start with
    notes := [⟨.c, .clamp (-128), .ofNat (UInt32.size - 1), true, some .quarterSharp⟩,
      ⟨.b, .clamp 127, 1, false, none⟩]
    selected := some 1 }

/-- The markup of notes that no keys lead to is read back, with one report, and so is that of notes
that have been entered by keys. -/
theorem markup_round_trip_extremes :
    Pattern.ofMarkup extremes.mei =
      .ok (.sequence (extremes.notes.map fun note => .note note.pattern)) ∧
    extremes.pattern.compile.diagnostics = [quarterSharpReport] ∧
    Pattern.ofMarkup melody.mei =
      .ok (.sequence (melody.notes.map fun note => .note note.pattern)) := by
  have hextremes : ∀ note ∈ extremes.notes, note.duration ≠ 0 := by decide
  obtain ⟨hpattern, -, hreports, -⟩ := markup_round_trip (by decide) (.inr hextremes)
  obtain ⟨hmelody, -⟩ := markup_round_trip (by decide) (.inl (⟨_, rfl⟩ : melody.IsReached))
  exact ⟨hpattern, hreports, hmelody⟩

end Keyboard

end MotifSearch
