import MotifSearch.Xml.Aside
import MotifSearch.Xml.Entity
import MotifSearch.Xml.Name

/-!
# What stands before the root element

A document may begin with a byte order mark and a declaration of its version. After comments and
processing instructions there may be a document type declaration, of whose internal subset only the
entities matter: the other declarations are skipped, and texts outside the document are not fetched.

## Main definitions

* `readDeclaration` — skip the declaration of the version
* `entityDeclaration` — the entity that a declaration declares
* `readSubset`, `readDoctype` — the entities of a document type declaration
* `readProlog` — the entities of a document, and its text from the root element on

## Main results

* `readProlog_of_startTag` — a document that begins with its root element has no entities
-/

namespace MotifSearch.Xml

/-- A text without the blanks it begins with. -/
def skipBlanks (text : List Char) : List Char :=
  text.dropWhile isBlank

/-- A text without the blanks it begins with, of which there is at least one. -/
def skipGap (cause : XmlError) (text : List Char) : Except XmlError (List Char) :=
  if text.head?.any isBlank then .ok (skipBlanks text) else .error cause

/-- What follows a word that the text must begin with. -/
def expect (cause : XmlError) (word text : List Char) : Except XmlError (List Char) :=
  match word.isPrefixOf? text with
  | some rest => .ok rest
  | none => .error cause

/-- The name that a text begins with, and what follows it. -/
def readName (text : List Char) : Except XmlError (List Char × List Char) :=
  if text.head?.any isNameStart then
    .ok (text.takeWhile isNameChar, text.dropWhile isNameChar)
  else .error .badName

/-- The text in quotes of either kind that a text begins with, and what follows it. -/
def readQuoted (cause : XmlError) (text : List Char) : Except XmlError (List Char × List Char) :=
  match text with
  | [] => .error cause
  | quote :: rest =>
    if quote = '"' ∨ quote = '\'' then
      match rest.dropWhile (· ≠ quote) with
      | _ :: after => .ok (rest.takeWhile (· ≠ quote), after)
      | [] => .error .unexpectedEnd
    else .error cause

/-- What follows a name, an equals sign and a value in the declaration of the version. -/
def skipSetting (text : List Char) : Except XmlError (List Char) := do
  let _ ← QName.ofText (text.takeWhile isNameChar)
  let rest ← expect .badDeclaration ['='] (skipBlanks (text.dropWhile isNameChar))
  let (value, rest) ← readQuoted .badDeclaration (skipBlanks rest)
  if value.all fun c => isAllowed c && c != '<' then .ok rest else .error .badDeclaration

/-- What follows the declaration of the version, whose first five characters have been read. Only
the version itself has to be given. -/
def readDeclaration (text : List Char) : Except XmlError (List Char) := do
  let gap (text : List Char) : Except XmlError (List Char) :=
    if "?>".toList.isPrefixOf text then .ok text else skipGap .badDeclaration text
  let rest := skipBlanks text
  let _ ← expect .badDeclaration "version".toList rest
  let rest ← gap (← skipSetting rest)
  let rest ← if "encoding".toList.isPrefixOf rest then gap (← skipSetting rest) else .ok rest
  let rest ← if "standalone".toList.isPrefixOf rest then skipSetting rest else .ok rest
  expect .badDeclaration "?>".toList (skipBlanks rest)

/-- What follows the name of an external text, if there is one. -/
def skipExternal? (text : List Char) : Except XmlError (Option (List Char)) := do
  match "SYSTEM".toList.isPrefixOf? text, "PUBLIC".toList.isPrefixOf? text with
  | some rest, _ =>
    let (_, rest) ← readQuoted .badDoctype (← skipGap .badDoctype rest)
    .ok (some rest)
  | none, some rest =>
    let (_, rest) ← readQuoted .badDoctype (← skipGap .badDoctype rest)
    let (_, rest) ← readQuoted .badDoctype (← skipGap .badDoctype rest)
    .ok (some rest)
  | none, none => .ok none

/-- The name and the text of the entity that a declaration declares, given what stands between the
keyword and the closing bracket. An entity whose text is kept elsewhere is not declared here. An
entity for use in declarations has a percent sign before its name. -/
def entityDeclaration (text : List Char) : Except XmlError (Option (List Char × List Char)) := do
  let rest ← skipGap .badDoctype text
  let (general, rest) ← match rest with
    | '%' :: rest => do .ok (false, ← skipGap .badDoctype rest)
    | _ => .ok (true, rest)
  let (name, rest) ← readName rest
  let rest ← skipGap .badDoctype rest
  match ← skipExternal? rest with
  | some rest =>
    -- Only an entity of the document can be one that is not text.
    let rest ← match "NDATA".toList.isPrefixOf? (skipBlanks rest) with
      | some rest => do
        if !general then .error .badDoctype
        let (_, rest) ← readName (← skipGap .badDoctype rest)
        .ok rest
      | none => .ok rest
    if skipBlanks rest = [] then .ok none else .error .badDoctype
  | none =>
    let (value, rest) ← readQuoted .badDoctype rest
    if skipBlanks rest = [] then .ok (some (name, value)) else .error .badDoctype

/-- How far the reading of an internal subset has come. -/
inductive SubsetState where
  /-- Between two declarations. -/
  | between
  /-- After an opening angle bracket. -/
  | opened
  /-- After the exclamation mark that follows it, and the keyword so far. -/
  | keyword (seen : List Char)
  | aside (aside : Aside)
  /-- In a declaration that is skipped. -/
  | skipped
  /-- In the declaration of an entity: the open quote, if any, and the text so far, in reverse. -/
  | entity (quote : Option Char) (seen : List Char)
  /-- After the closing square bracket. -/
  | ended
  deriving DecidableEq

/-- What begins with an opening angle bracket, an exclamation mark and a keyword. -/
def SubsetState.ofKeyword? (word : List Char) : Option SubsetState :=
  [("--".toList, aside (.comment 0)), ("ENTITY".toList, entity none []),
    ("ELEMENT".toList, skipped), ("ATTLIST".toList, skipped),
    ("NOTATION".toList, skipped)].lookup word

/-- The entities that an internal subset declares after those that are given, and what follows the
document type declaration. -/
def readSubset : SubsetState → Entities → List Char → Except XmlError (Entities × List Char)
  | _, _, [] => .error .unexpectedEnd
  | .between, entities, c :: rest =>
    if isBlank c then readSubset .between entities rest
    else if c = '<' then readSubset .opened entities rest
    else if c = ']' then readSubset .ended entities rest
    else .error .badDoctype
  | .opened, entities, c :: rest =>
    if c = '!' then readSubset (.keyword []) entities rest
    else if c = '?' then readSubset (.aside (.target [])) entities rest
    else .error .badDoctype
  | .keyword seen, entities, c :: rest =>
    match SubsetState.ofKeyword? (seen ++ [c]) with
    | some state => readSubset state entities rest
    | none =>
      -- No keyword is longer than this one.
      if seen.length < "NOTATION".length then readSubset (.keyword (seen ++ [c])) entities rest
      else .error .badDoctype
  | .aside aside, entities, c :: rest => do
    match ← aside.step c with
    | some aside => readSubset (.aside aside) entities rest
    | none => readSubset .between entities rest
  | .skipped, entities, c :: rest =>
    readSubset (if c = '>' then .between else .skipped) entities rest
  | .entity none seen, entities, c :: rest =>
    if c = '>' then do
      match ← entityDeclaration seen.reverse with
      | some declared => readSubset .between (entities ++ [declared]) rest
      | none => readSubset .between entities rest
    else if c = '"' ∨ c = '\'' then readSubset (.entity (some c) (c :: seen)) entities rest
    else readSubset (.entity none (c :: seen)) entities rest
  | .entity (some quote) seen, entities, c :: rest =>
    readSubset (.entity (if c = quote then none else some quote) (c :: seen)) entities rest
  | .ended, entities, c :: rest =>
    if isBlank c then readSubset .ended entities rest
    else if c = '>' then .ok (entities, rest)
    else .error .badDoctype

/-- The entities of a document type declaration, whose keyword has been read, and what follows
it. -/
def readDoctype (text : List Char) : Except XmlError (Entities × List Char) := do
  let (_, rest) ← readName (← skipGap .badDoctype text)
  let rest := skipBlanks rest
  let rest := skipBlanks ((← skipExternal? rest).getD rest)
  match rest with
  | '>' :: rest => .ok ([], rest)
  | '[' :: rest => readSubset .between [] rest
  | _ => .error .badDoctype

/-- The entities of a document, and its text from the root element on. -/
def readProlog (text : List Char) : Except XmlError (Entities × List Char) := do
  let text := match text with
    | '\ufeff' :: rest => rest
    | _ => text
  let text ← match "<?xml ".toList.isPrefixOf? text with
    | some rest => readDeclaration rest
    | none => .ok text
  let text ← skipAsides none text
  match "<!DOCTYPE".toList.isPrefixOf? text with
  | some rest => do
    let (entities, rest) ← readDoctype rest
    .ok (entities, ← skipAsides none rest)
  | none => .ok ([], text)

private theorem isPrefixOf?_cons (c d : Char) (word text : List Char) :
    (c :: word).isPrefixOf? (d :: text) = if c == d then word.isPrefixOf? text else none :=
  rfl

/-- A document that begins with its root element has no entities. -/
theorem readProlog_of_startTag {c : Char} {rest : List Char} (hbang : c ≠ '!')
    (hquestion : c ≠ '?') : readProlog ('<' :: c :: rest) = .ok ([], '<' :: c :: rest) := by
  have hskip : skipAsides none ('<' :: c :: rest) = .ok ('<' :: c :: rest) :=
    skipAsides_of_head (by decide) hbang hquestion
  simp [readProlog, isPrefixOf?_cons, Ne.symm hbang, Ne.symm hquestion, hskip, bind, Except.bind]

end MotifSearch.Xml
