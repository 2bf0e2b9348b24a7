import MotifSearch.Regex.Token

/-!
# Reading a written match expression

The second step of reading: the tokens are folded into a syntax tree. Every open group keeps the
branches and items it has seen so far; a bar closes a branch, a closing bracket closes a group, and
a loop mark takes the item in front of it and nothing else.

## Main definitions

* `Regex.Level` — what has been read of the innermost open group
* `Regex.assemble` — the tree of a list of tokens
* `Regex.parse` — the tree of a text, if its nesting stays within `Regex.depthLimit`

## Main results

* `depth_le_of_parse` — accepted expressions stay within the limit
-/

namespace MotifSearch.Regex

/-- Expressions may not be nested deeper than this. Nothing else is limited: that an engine may also
refuse an expression for the memory that it takes to search with it is left out. -/
def depthLimit : Nat := 250

/-- What has been read of an open group: the closed branches and the items of the open branch,
the latest ones first. -/
structure Level where
  branches : List Regex
  items : List Regex

namespace Level

/-- A group of which nothing has been read. -/
def start : Level := ⟨[], []⟩

/-- Add an item to the open branch. -/
def push (level : Level) (item : Regex) : Level :=
  { level with items := item :: level.items }

/-- Close the open branch and begin another one. -/
def nextBranch (level : Level) : Level :=
  ⟨concat level.items.reverse :: level.branches, []⟩

/-- The expression that has been read. -/
def close (level : Level) : Regex :=
  alternatives (level.nextBranch.branches.reverse)

end Level

/-- The tree of a list of tokens, given the groups around the innermost open one and what has been
read of that one. -/
def assemble : List Token → List (Bool × Level) → Level → Except SyntaxError Regex
  | [], [], level => .ok level.close
  | [], _ :: _, _ => .error .unclosedGroup
  | .atom item :: tokens, outer, level => assemble tokens outer (level.push item)
  | .bar :: tokens, outer, level => assemble tokens outer level.nextBranch
  | .openGroup captures :: tokens, outer, level =>
    assemble tokens ((captures, level) :: outer) .start
  | .closeGroup :: tokens, (captures, around) :: outer, level =>
    assemble tokens outer (around.push (group captures level.close))
  | .closeGroup :: _, [], _ => .error .unopenedGroup
  | .loop times greedy :: tokens, outer, level =>
    -- The mark applies to the last item, and there is none right after a bar or a bracket.
    match level.items with
    | [] => .error .nothingToRepeat
    | item :: items => assemble tokens outer ⟨level.branches, loop times greedy item :: items⟩

/-- The syntax tree of a written match expression. -/
def parse (text : List Char) : Except SyntaxError Regex := do
  let tokens ← Token.scan none text
  let regex ← assemble tokens [] .start
  if regex.depth ≤ depthLimit then .ok regex else .error (.tooDeep depthLimit)

theorem depth_le_of_parse {text : List Char} {regex : Regex} (h : parse text = .ok regex) :
    regex.depth ≤ depthLimit := by
  unfold parse at h
  cases hscan : Token.scan none text with
  | error e => simp [hscan, bind, Except.bind] at h
  | ok tokens =>
    cases hassemble : assemble tokens [] .start with
    | error e => simp [hscan, hassemble, bind, Except.bind] at h
    | ok tree =>
      simp only [hscan, hassemble, bind, Except.bind] at h
      split at h
      · next hdepth =>
        cases h
        exact hdepth
      · cases h

end MotifSearch.Regex
