import MotifSearch.Markup.Pattern
import MotifSearch.Search.Basic

/-!
# Remembered expressions

Markup with the same canonical text is compiled once. A cache remembers the compiled patterns and
the syntax trees of their expressions by canonical text. Markup that cannot be compiled is not
remembered.

## Main definitions

* `CachedExpression` — what is remembered
* `ExpressionCache` — the cache, with `ExpressionCache.get` and `ExpressionCache.clear`
-/

namespace MotifSearch

/-- A compiled pattern and the syntax tree of its expression. -/
structure CachedExpression where
  compiled : CompiledPattern
  regex : Regex

/-- Compile a pattern and read its expression. -/
def CachedExpression.ofPattern (pattern : Pattern) : Except SearchError CachedExpression := do
  let compiled := pattern.compile
  let regex ← readExpression compiled.expression
  .ok ⟨compiled, regex⟩

/-- Compiled expressions by the canonical texts of their patterns. -/
structure ExpressionCache where
  entries : List (List Char × CachedExpression)

namespace ExpressionCache

/-- The cache that remembers nothing. -/
def empty : ExpressionCache := ⟨[]⟩

/-- The number of remembered expressions. -/
def size (cache : ExpressionCache) : Nat :=
  cache.entries.length

/-- Whether nothing is remembered. -/
def isEmpty (cache : ExpressionCache) : Bool :=
  cache.entries.isEmpty

/-- Forget everything. -/
def clear (_ : ExpressionCache) : ExpressionCache :=
  empty

/-- The expression of markup, and the cache that remembers it. -/
def get (cache : ExpressionCache) (markup : List Char) :
    Except SearchError (CachedExpression × ExpressionCache) := do
  let pattern ← (Pattern.ofMarkup markup).mapError SearchError.pattern
  match cache.entries.lookup pattern.canonical with
  | some entry => .ok (entry, cache)
  | none =>
    let entry ← CachedExpression.ofPattern pattern
    .ok (entry, ⟨(pattern.canonical, entry) :: cache.entries⟩)

end ExpressionCache

end MotifSearch
