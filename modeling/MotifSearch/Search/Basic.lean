import MotifSearch.Kern.Marked
import MotifSearch.Markup.Error
import MotifSearch.Regex.Parse
import MotifSearch.Regex.Search

/-!
# Searching a score

## Main definitions

* `SearchError` — why a search fails
* `locate` — the matches of an expression in a score
* `markScore` — a score with its matches marked

## Main results

* `locate_eq_ok_iff` — a search fails only where the expression cannot be read
-/

namespace MotifSearch

/-- Why a search fails. -/
inductive SearchError where
  | pattern (cause : PatternError)
  | expression (cause : SyntaxError)
  | line (cause : LineError)
  deriving DecidableEq

/-- A cause in words. -/
def SearchError.message : SearchError → String
  | pattern cause => "Pattern compilation failed: " ++ cause.message
  | expression cause => "Invalid match expression: " ++ cause.message
  | line cause => "Annotation failed: " ++ cause.message

/-- The syntax tree of a match expression. An expression is refused for what is written in it or for
its depth, but never for its size. -/
def readExpression (expression : List Char) : Except SearchError Regex :=
  (Regex.parse expression).mapError SearchError.expression

/-- The matches of an expression in a score. -/
def locate (score expression : List Char) : Except SearchError (List Span) :=
  (readExpression expression).map fun regex => regex.findAll score

/-- A score with the matches of an expression marked. -/
def markScore (score expression : List Char) (marker : Char) : Except SearchError MarkedScore := do
  let spans ← locate score expression
  (markSpans score spans marker).mapError SearchError.line

@[simp] theorem mapError_ok {ε ε' α : Type} (cause : ε → ε') (a : α) :
    (Except.ok a).mapError cause = .ok a := rfl

@[simp] theorem mapError_error {ε ε' α : Type} (cause : ε → ε') (e : ε) :
    (Except.error e : Except ε α).mapError cause = .error (cause e) := rfl

theorem locate_eq_ok_iff {score expression : List Char} {spans : List Span} :
    locate score expression = .ok spans ↔
      ∃ regex, Regex.parse expression = .ok regex ∧ regex.findAll score = spans := by
  unfold locate readExpression
  cases Regex.parse expression <;> simp [Except.map]

end MotifSearch
