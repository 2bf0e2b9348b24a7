import MotifSearch.Regex.CharSet

/-!
# Match expressions

The syntax tree of a match expression. Sequences and choices are binary and lean to the right;
`concat` and `alternatives` build them from lists, so that a single item stands for itself.

## Main definitions

* `Repeat` — how often the body of a loop is matched
* `Regex` — the syntax tree
* `Regex.concat`, `Regex.alternatives` — the expression of a list of items, of a list of branches
* `Regex.nullable` — whether an expression can match the empty text somewhere
* `Regex.depth` — the nesting depth, which is bounded for the expressions that are accepted

## Main results

* `concat_cons_cons`, `alternatives_cons_cons` — lists of two or more are built from the right
-/

namespace MotifSearch

/-- How often the body of a loop is matched. -/
inductive Repeat where
  | optional
  | oneOrMore
  | zeroOrMore
  deriving DecidableEq

/-- The syntax tree of a match expression. -/
inductive Regex where
  /-- Matches the empty text. -/
  | empty
  /-- Matches one character of a set. -/
  | chars (set : CharSet)
  /-- Matches the empty text at the beginning of a line. -/
  | lineStart
  /-- Matches the empty text unless a character of the set follows. The written syntax has no
  spelling for this assertion; it serves to state guards. -/
  | notAhead (set : CharSet)
  /-- A bracketed expression; `captures` tells `(…)` from `(?:…)`. -/
  | group (captures : Bool) (body : Regex)
  /-- A repeated expression, preferring more iterations when `greedy` and fewer otherwise. -/
  | loop (times : Repeat) (greedy : Bool) (body : Regex)
  /-- One expression after the other. -/
  | cat (first rest : Regex)
  /-- Either expression, the first one preferred. -/
  | alt (first rest : Regex)
  deriving DecidableEq

namespace Regex

/-- The items of a list one after the other. -/
def concat : List Regex → Regex
  | [] => empty
  | [item] => item
  | item :: items => cat item (concat items)

/-- A choice between the branches of a list, earlier ones preferred. -/
def alternatives : List Regex → Regex
  | [] => empty
  | [branch] => branch
  | branch :: branches => alt branch (alternatives branches)

@[simp] theorem concat_nil : concat [] = empty := rfl

@[simp] theorem concat_singleton (item : Regex) : concat [item] = item := rfl

@[simp] theorem concat_cons_cons (item next : Regex) (items : List Regex) :
    concat (item :: next :: items) = cat item (concat (next :: items)) := rfl

@[simp] theorem alternatives_nil : alternatives [] = empty := rfl

@[simp] theorem alternatives_singleton (branch : Regex) : alternatives [branch] = branch := rfl

@[simp] theorem alternatives_cons_cons (branch next : Regex) (branches : List Regex) :
    alternatives (branch :: next :: branches) =
      alt branch (alternatives (next :: branches)) := rfl

/-- Whether an expression is a sequence of two or more items. -/
def isCat : Regex → Bool
  | cat _ _ => true
  | _ => false

/-- Whether an expression is a choice between two or more branches. -/
def isAlt : Regex → Bool
  | alt _ _ => true
  | _ => false

/-- Whether an expression can match the empty text somewhere. -/
def nullable : Regex → Bool
  | empty | lineStart | notAhead _ => true
  | chars _ => false
  | group _ body => body.nullable
  | loop .oneOrMore _ body => body.nullable
  | loop _ _ _ => true
  | cat first rest => first.nullable && rest.nullable
  | alt first rest => first.nullable || rest.nullable

/-- The nesting depth: a bracketed class, a group and a loop are one level each, and so is a whole
sequence of two or more items or a whole choice between two or more branches. -/
def depth : Regex → Nat
  | empty | lineStart => 0
  | chars set | notAhead set => set.depth
  | group _ body | loop _ _ body => body.depth + 1
  | cat first rest => max (first.depth + 1) (if rest.isCat then rest.depth else rest.depth + 1)
  | alt first rest => max (first.depth + 1) (if rest.isAlt then rest.depth else rest.depth + 1)

end Regex

end MotifSearch
