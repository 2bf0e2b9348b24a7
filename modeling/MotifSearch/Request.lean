import MotifSearch.Corpus.Saved
import MotifSearch.Pattern.Saved
import MotifSearch.Search.Cache

/-!
# Requests and their answers

A host asks for one thing at a time and gets a JSON value as the answer, or an error in words.
Settings are read before everything else, so that a fault in them is the one that is reported.

## Main definitions

* `RequestError` — why a request has no answer
* `Request.compile`, `Request.mark`, `Request.search` — the requests
-/

namespace MotifSearch

/-- Why a request has no answer. -/
inductive RequestError where
  | settings (cause : JsonError)
  | scores (cause : JsonError)
  | pattern (cause : PatternError)
  | lines (cause : LineError)
  | search (cause : SearchError)
  deriving DecidableEq

/-- A cause in words. -/
def RequestError.message : RequestError → String
  | settings cause => "Invalid search settings: " ++ cause.message
  | scores cause => "Invalid score list: " ++ cause.message
  | pattern cause => cause.message
  | lines cause => cause.message
  | search cause => cause.message

namespace Request

/-- Compile markup. -/
def compile (markup : List Char) : Except RequestError Json := do
  let compiled ← (CompiledPattern.ofMarkup markup).mapError RequestError.pattern
  .ok compiled.toJson

/-- Mark the matches of an expression in a score. -/
def mark (score expression : List Char) (settings : Option (List Char)) :
    Except RequestError Json := do
  let settings ← (Settings.ofText settings).mapError RequestError.settings
  let spans ← (locate score expression).mapError RequestError.search
  let marked ← (markSpans score spans settings.marker).mapError RequestError.lines
  let text := if settings.legend then marked.humdrum else marked.markedText
  .ok (.record [("marked_text", .text text), ("touched_lines", .list .nat marked.touched),
    ("match_count", .nat spans.length)])

/-- Rank the scores of a saved corpus by their matches of markup. -/
def search (markup scores : List Char) (settings : Option (List Char)) :
    Except RequestError Json := do
  let settings ← (Settings.ofText settings).mapError RequestError.settings
  let corpus ← (Corpus.load scores).mapError RequestError.scores
  let compiled ← (CompiledPattern.ofMarkup markup).mapError RequestError.pattern
  let hits ← (corpus.search compiled.expression settings.scanMode).mapError RequestError.search
  .ok (.record [("expression", .text compiled.expression), ("hits", .list Hit.toJson hits)])

end Request

end MotifSearch
