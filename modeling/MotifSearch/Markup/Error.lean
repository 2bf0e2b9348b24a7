import MotifSearch.Text.Number
import MotifSearch.Text.Quoted
import MotifSearch.Xml.Error

/-!
# Why markup has no pattern

## Main definitions

* `AttributeFault` — an attribute whose value cannot be used, with the element, the attribute and
  the reason
* `PatternError` — the causes
* `PatternError.message` — a cause in words
-/

namespace MotifSearch

/-- An attribute whose value cannot be used. -/
inductive AttributeFault where
  | duration
  | dots
  | letter
  | letterMissing
  | octave
  | accidental
  | minOccurrences
  | maxOccurrences
  deriving DecidableEq

namespace AttributeFault

/-- The element that carries the attribute. -/
def element : AttributeFault → String
  | minOccurrences | maxOccurrences => "query:group"
  | _ => "note"

/-- The name of the attribute. -/
def attributeName : AttributeFault → String
  | duration => "dur"
  | dots => "dots"
  | letter | letterMissing => "pname"
  | octave => "oct"
  | accidental => "accid"
  | minOccurrences => "min-occurrences"
  | maxOccurrences => "max-occurrences"

/-- What is wrong with the value. -/
def reason : AttributeFault → String
  | duration => "is not a duration code"
  | dots => "is not a dot count"
  | letter => "is not a pitch letter a-g"
  | letterMissing => "is required unless query:any-pitch is set"
  | octave => "is not an integer"
  | accidental => "is not a supported accidental"
  | minOccurrences | maxOccurrences => "is not a non-negative integer"

end AttributeFault

/-- Why markup has no pattern. -/
inductive PatternError where
  | invalidXml (cause : XmlError)
  | malformed (fault : AttributeFault) (value : List Char)
  | unknownElement (name : List Char)
  /-- The document does not have exactly one place for a pattern. -/
  | containerCount (found : Nat)
  /-- There is no note in the pattern. -/
  | empty
  deriving DecidableEq

/-- A cause in words. -/
def PatternError.message : PatternError → String
  | invalidXml cause => "Invalid XML: " ++ cause.message
  | malformed fault value =>
    "Malformed <" ++ fault.element ++ ">: attribute '" ++ fault.attributeName ++ "'=" ++
      String.ofList (Text.quote value) ++ " " ++ fault.reason
  | unknownElement name => "Unknown pattern element <" ++ String.ofList name ++ ">"
  | containerCount found =>
    "Expected exactly one pattern container, found " ++ String.ofList (Text.decimal found)
  | empty => "Pattern is empty"

end MotifSearch
