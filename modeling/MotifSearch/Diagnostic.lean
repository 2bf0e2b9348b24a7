/-!
# Diagnostics

What a compilation changed is reported beside its result. A diagnostic names a kind, the element
it refers to, and what happened in words.

## Main definitions

* `Severity`, `Diagnostic` — a report
* `Diagnostic.warning` — a report of severity `warning`
-/

namespace MotifSearch

/-- How serious a report is. Whatever is worse than a warning is an error and has no result. -/
inductive Severity where
  | warning
  deriving DecidableEq

/-- The word for a severity. -/
def Severity.name : Severity → String
  | warning => "warning"

/-- A report about something that was replaced by something else. -/
structure Diagnostic where
  severity : Severity
  kind : String
  element : String
  message : String
  deriving DecidableEq

/-- A warning. -/
def Diagnostic.warning (kind element message : String) : Diagnostic :=
  { severity := .warning, kind, element, message }

end MotifSearch
