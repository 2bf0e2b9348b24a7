import MotifSearch.Diagnostic
import MotifSearch.Pattern.Canonical
import MotifSearch.Pattern.Expression

/-!
# Compiled patterns

Every pattern has a match expression, but not every pattern can be matched as it was meant: bounds
without a quantifier match any number of times, and an accidental that kern cannot write is left
out. Each such fallback is reported. A compiled pattern is the expression together with the
canonical text and the reports.

## Main definitions

* `Fallback`, `Fallback.diagnostic` — what was replaced, and the report about it
* `Pattern.fallbacks` — the fallbacks in a pattern, a group before what is in it
* `Pattern.compile` — the compiled pattern

## Main results

* `sequenceFallbacks_eq_flatMap`, `branchesFallbacks_eq_flatMap` — the fallbacks below a node
-/

namespace MotifSearch

/-- Something that a match expression cannot say. -/
inductive Fallback where
  /-- The bounds have no quantifier, so any number of occurrences match. -/
  | unsupportedOccurrences (bounds : Bounds)
  /-- Kern cannot write the accidental, so the plain pitch matches. -/
  | unspellableAccidental (accidental : Accidental)
  deriving DecidableEq

namespace Fallback

/-- How a message shows one bound. -/
def boundText : Option UInt32 → String
  | some n => "Some(" ++ String.ofList (Text.decimal n.toNat) ++ ")"
  | none => "None"

/-- The report about a fallback. -/
def diagnostic : Fallback → Diagnostic
  | unsupportedOccurrences bounds =>
    .warning "unsupported_occurrences" "query:group"
      ("min-occurrences=" ++ boundText bounds.min ++ ", max-occurrences=" ++
        boundText bounds.max ++ " is not supported; matching zero or more")
  | unspellableAccidental accidental =>
    .warning "unspellable_accidental" "note"
      ("accid=\"" ++ String.ofList accidental.code ++
        "\" has no kern spelling; matching the unaltered pitch")

end Fallback

/-- The fallback of a note, if it needs one. -/
def NotePattern.fallbacks (note : NotePattern) : List Fallback :=
  match note.pitch with
  | .exact ⟨_, _, .exact accidental⟩ =>
    if accidental.kern?.isNone then [.unspellableAccidental accidental] else []
  | _ => []

/-- The fallback of the bounds of a group, if they need one. -/
def Bounds.fallbacks (bounds : Bounds) : List Fallback :=
  if bounds.quantifier?.isNone then [.unsupportedOccurrences bounds] else []

/-- The result of compiling a pattern. -/
structure CompiledPattern where
  expression : List Char
  canonical : List Char
  diagnostics : List Diagnostic
  deriving DecidableEq

namespace Pattern

mutual

/-- The fallbacks in a pattern, in the order of the expression, a group before its children. -/
def fallbacks : Pattern → List Fallback
  | note spec => spec.fallbacks
  | sequence children => sequenceFallbacks children
  | alternation branches => branchesFallbacks branches
  | group children bounds => bounds.fallbacks ++ sequenceFallbacks children

/-- The fallbacks in the children of a node. -/
def sequenceFallbacks : List Pattern → List Fallback
  | [] => []
  | child :: children => child.fallbacks ++ sequenceFallbacks children

/-- The fallbacks in the branches of an alternation. -/
def branchesFallbacks : List (List Pattern) → List Fallback
  | [] => []
  | branch :: branches => sequenceFallbacks branch ++ branchesFallbacks branches

end

theorem sequenceFallbacks_eq_flatMap (children : List Pattern) :
    sequenceFallbacks children = children.flatMap fallbacks := by
  induction children with
  | nil => rfl
  | cons child children ih => simp [sequenceFallbacks, ih]

theorem branchesFallbacks_eq_flatMap (branches : List (List Pattern)) :
    branchesFallbacks branches = branches.flatten.flatMap fallbacks := by
  induction branches with
  | nil => rfl
  | cons branch branches ih => simp [branchesFallbacks, sequenceFallbacks_eq_flatMap, ih]

/-- The match expression of a pattern, its canonical text, and the reports about its fallbacks. -/
def compile (pattern : Pattern) : CompiledPattern where
  expression := pattern.expression
  canonical := pattern.canonical
  diagnostics := pattern.fallbacks.map Fallback.diagnostic

end Pattern

end MotifSearch
