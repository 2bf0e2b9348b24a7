import Mathlib.Data.List.Infix
import MotifSearch.Proofs.Markup.Fragment

/-!
# Blanks before markup

Blanks before a fragment are character data of the layer, and blanks before the root element, or
before what stands in front of it, are skipped. So they do not matter, whatever the markup is, with
one exception: the declaration of the version may only stand at the very beginning of a document. A
document with blanks before it is still taken for a document, but it is refused.

## Main results

* `isDocument_append` — what a text is taken for does not depend on blanks before it
* `parse_wrap_append` — nor does what a fragment is read as
* `readProlog_append`, `readProlog_append_declaration` — what stands before the root element, with
  blanks before it
* `ofMarkup_append` — markup with blanks before it has the same pattern, unless it begins with a
  declaration of the version
-/

namespace MotifSearch

theorem Text.isBlank_of_isXmlBlank {c : Char} (h : Xml.isBlank c = true) :
    Text.isBlank c = true := by
  simp only [Xml.isBlank, Bool.or_eq_true, beq_iff_eq] at h
  rcases h with ((rfl | rfl) | rfl) | rfl <;> decide

namespace Xml

/-- How the declaration of the version begins. -/
def declarationMark : List Char := "<?xml ".toList

variable {blanks text other : List Char} (hblanks : ∀ c ∈ blanks, isBlank c = true)

section Prolog

/-- The entities of a document and its text from the root element on, given what follows the asides
at its beginning. -/
def readAfterAsides (text : List Char) : Except XmlError (Entities × List Char) := do
  match "<!DOCTYPE".toList.isPrefixOf? text with
  | some rest => do
    let (entities, rest) ← readDoctype rest
    .ok (entities, ← skipAsides none rest)
  | none => .ok ([], text)

/-- Where neither a byte order mark nor a declaration begins, the first thing that is done with a
document is to skip asides. -/
theorem readProlog_eq (hmark : text.head? ≠ some '\ufeff')
    (hdeclaration : ¬ declarationMark <+: text) :
    readProlog text = skipAsides none text >>= readAfterAsides := by
  have hnone : "<?xml ".toList.isPrefixOf? text = none :=
    Option.eq_none_iff_forall_ne_some.mpr fun rest h =>
      hdeclaration ⟨rest, List.isPrefixOf?_eq_some_iff_append_eq.mp h⟩
  unfold readProlog
  extract_lets start next
  have hstart : start = text := by
    unfold start
    split
    · exact absurd rfl hmark
    · rfl
  rw [hstart, hnone]
  rfl

/-- After the asides have begun, it is too late for a declaration. -/
theorem skipAsides_declarationMark (rest : List Char) :
    skipAsides none (declarationMark ++ rest) = .error .badDeclaration :=
  rfl

include hblanks

/-- Blanks are skipped. -/
theorem skipAsides_append (text : List Char) :
    skipAsides none (blanks ++ text) = skipAsides none text := by
  induction blanks with
  | nil => rfl
  | cons c blanks ih =>
    have hc := hblanks c List.mem_cons_self
    have hangle : c ≠ '<' := by
      rintro rfl
      exact Bool.noConfusion hc
    rw [List.cons_append, skipAsides]
    · rw [if_pos hc]
      exact ih fun d hd => hblanks d (List.mem_cons_of_mem c hd)
    · exact fun rest heq => absurd heq hangle
    · exact fun rest heq => absurd heq hangle

/-- With blanks before it, a document begins with its asides. -/
theorem readProlog_append (hne : blanks ≠ []) (text : List Char) :
    readProlog (blanks ++ text) = skipAsides none text >>= readAfterAsides := by
  obtain ⟨c, rest, rfl⟩ := List.exists_cons_of_ne_nil hne
  have hc := hblanks c List.mem_cons_self
  have hother : ∀ d, isBlank d = false → c ≠ d := by
    rintro d hd rfl
    exact Bool.noConfusion (hc.symm.trans hd)
  have hmark : (c :: rest ++ text).head? ≠ some '\ufeff' := fun h =>
    hother '\ufeff' rfl (Option.some.inj h)
  have hdeclaration : ¬ declarationMark <+: c :: rest ++ text := fun h =>
    hother '<' rfl (List.cons_prefix_cons.mp h).1.symm
  rw [readProlog_eq hmark hdeclaration, skipAsides_append hblanks]

/-- Blanks before a document do not matter, unless it begins with a declaration. -/
theorem parse_append (hne : blanks ≠ []) (hmark : text.head? ≠ some '\ufeff') :
    parse (blanks ++ text) =
      if declarationMark <+: text then .error .badDeclaration else parse text := by
  split
  · next h =>
    obtain ⟨rest, rfl⟩ := h
    rw [parse, readProlog_append hblanks hne, skipAsides_declarationMark]
    rfl
  · next h => rw [parse, parse, readProlog_append hblanks hne, readProlog_eq hmark h]

end Prolog

end Xml

namespace Markup

open Xml (Reader plainReading)

variable {blanks : List Char} (hblanks : ∀ c ∈ blanks, Xml.isBlank c = true)
include hblanks

theorem trimStart_append (text : List Char) :
    Text.trimStart (blanks ++ text) = Text.trimStart text :=
  List.dropWhile_append_of_pos fun c hc => Text.isBlank_of_isXmlBlank (hblanks c hc)

/-- What a text is taken for does not depend on blanks before it. -/
theorem isDocument_append (text : List Char) : isDocument (blanks ++ text) = isDocument text := by
  rw [isDocument, isDocument, trimStart_append hblanks]

/-- Blanks at the beginning of the layer leave no trace. -/
theorem run_inLayer_append (text : List Char) :
    (inLayer 0 []).run plainReading (blanks ++ text) = (inLayer 0 []).run plainReading text := by
  induction blanks with
  | nil => rfl
  | cons c blanks ih =>
    have hstep : (inLayer 0 []).step plainReading c = .ok (inLayer 0 []) := by
      have hc := hblanks c List.mem_cons_self
      simp only [Xml.isBlank, Bool.or_eq_true, beq_iff_eq] at hc
      rcases hc with ((rfl | rfl) | rfl) | rfl <;> rfl
    rw [List.cons_append, Reader.run, Except.bind_of_eq_ok hstep]
    exact ih fun d hd => hblanks d (List.mem_cons_of_mem c hd)

/-- A fragment is read in the same way with blanks before it. -/
theorem parse_wrap_append (fragment : List Char) :
    Xml.parse (wrap (blanks ++ fragment)) = Xml.parse (wrap fragment) := by
  rw [parse_wrap, parse_wrap, run_inLayer_append hblanks]

omit hblanks in
/-- What begins with a declaration is taken for a document. -/
theorem isDocument_of_declaration {text : List Char} (h : Xml.declarationMark <+: text) :
    isDocument text = true := by
  obtain ⟨rest, rfl⟩ := h
  rfl

omit hblanks in
/-- A byte order mark is no blank, so a text that begins with it is not taken for a document. -/
theorem head?_ne_of_isDocument {text : List Char} (h : isDocument text = true) :
    text.head? ≠ some '\ufeff' := by
  intro hmark
  obtain ⟨rest, rfl⟩ := List.head?_eq_some_iff.mp hmark
  exact Bool.noConfusion (h.symm.trans (rfl : isDocument ('\ufeff' :: rest) = false))

/-- A document, whether given or made from a fragment, is read in the same way with blanks before
the text, unless it begins with a declaration. -/
theorem parse_toDocument_append (hne : blanks ≠ []) (text : List Char) :
    Xml.parse (toDocument (blanks ++ text)) =
      if Xml.declarationMark <+: text then .error .badDeclaration
      else Xml.parse (toDocument text) := by
  cases hdocument : isDocument text with
  | true =>
    have hsame := isDocument_append hblanks text
    rw [toDocument_of_isDocument (hsame.trans hdocument), toDocument_of_isDocument hdocument,
      Xml.parse_append hblanks hne (head?_ne_of_isDocument hdocument)]
  | false =>
    -- A fragment does not begin with a declaration.
    have hdeclaration : ¬ Xml.declarationMark <+: text := fun h =>
      Bool.noConfusion (hdocument.symm.trans (isDocument_of_declaration h))
    have hsame := isDocument_append hblanks text
    rw [toDocument_of_not_isDocument (hsame.trans hdocument),
      toDocument_of_not_isDocument hdocument, if_neg hdeclaration, parse_wrap_append hblanks]

end Markup

/-- Blanks before markup do not matter, whether it is a fragment or a document: there is the same
compiled pattern, or the same cause why there is none. Only a document that begins with a
declaration of the version is refused as soon as there is a blank before it. -/
theorem CompiledPattern.ofMarkup_blanks_append {blanks : List Char}
    (hblanks : ∀ c ∈ blanks, Xml.isBlank c = true) (markup : List Char) :
    ofMarkup (blanks ++ markup) =
      if blanks ≠ [] ∧ Xml.declarationMark <+: markup then
        .error (.invalidXml .badDeclaration)
      else ofMarkup markup := by
  by_cases hne : blanks = []
  · subst hne
    rw [List.nil_append, if_neg fun h => h.1 rfl]
  · have hparse := Markup.parse_toDocument_append hblanks hne markup
    rw [ofMarkup, Pattern.ofMarkup, Pattern.ofDocument, Markup.parse, hparse]
    by_cases hdeclaration : Xml.declarationMark <+: markup
    · rw [if_pos hdeclaration, if_pos ⟨hne, hdeclaration⟩]
      rfl
    · rw [if_neg hdeclaration, if_neg fun h => hdeclaration h.2]
      rfl

/-- The rest of a document with one note, after the declaration of the version if there is one. -/
def oneNote : List Char :=
  ("<mei><music><body><mdiv><score><section><measure><staff><layer><note/>" ++
    "</layer></staff></measure></section></score></mdiv></body></music></mei>").toList

/-- A document with a declaration and one note. -/
def declaredNote : List Char :=
  Xml.declarationMark ++ "version='1.0'?>".toList ++ oneNote

/-- A document with a note is refused for the blank before its declaration, and for nothing else; a
line break before a document without a declaration does not matter. -/
theorem CompiledPattern.ofMarkup_blanks_append_declaredNote :
    (∀ c ∈ [' '], Xml.isBlank c = true) ∧
    ofMarkup ([' '] ++ declaredNote) = .error (.invalidXml .badDeclaration) ∧
    (∃ compiled, ofMarkup declaredNote = .ok compiled) ∧
    (∀ c ∈ ['\r', '\n'], Xml.isBlank c = true) ∧
    ofMarkup (['\r', '\n'] ++ oneNote) = ofMarkup oneNote := by
  have hblank : ∀ c ∈ [' '], Xml.isBlank c = true := by simp [Xml.isBlank]
  have hbreak : ∀ c ∈ ['\r', '\n'], Xml.isBlank c = true := by simp [Xml.isBlank]
  have hdeclared : (Pattern.ofMarkup declaredNote).isOk = true := by decide +kernel
  refine ⟨hblank, ?_, ?_, hbreak, ?_⟩
  · have hdeclaration : Xml.declarationMark <+: declaredNote := ⟨_, (List.append_assoc _ _ _).symm⟩
    rw [ofMarkup_blanks_append hblank, if_pos ⟨List.cons_ne_nil _ _, hdeclaration⟩]
  · rw [ofMarkup]
    cases hpattern : Pattern.ofMarkup declaredNote with
    | error cause =>
      rw [hpattern] at hdeclared
      cases hdeclared
    | ok pattern => exact ⟨pattern.compile, rfl⟩
  · have hnone : ¬ Xml.declarationMark <+: oneNote := by decide +kernel
    rw [ofMarkup_blanks_append hbreak, if_neg fun h => hnone h.2]

end MotifSearch
