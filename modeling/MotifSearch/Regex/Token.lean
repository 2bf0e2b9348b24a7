import MotifSearch.Regex.Basic

/-!
# Tokens of a written match expression

The written form of a match expression is read in two steps. This file has the first: it splits
the characters into tokens, resolving escapes and bracketed classes on the way. The brackets of
groups, the bars between branches and the loop marks stay tokens of their own.

Inside a class a hyphen is literal at the front, at the end and right after a range; between two
other characters it makes a range. A closing bracket is literal in the first place. Nested classes
and the doubled operators `&&`, `--` and `~~` are not part of the syntax, nor are counted loops,
flags, look-around and references back.

## Main definitions

* `SyntaxError` — why an expression is refused
* `Token` — a token
* `Token.scan` — the tokens of a text

## Main results

* `escaped?_of_isMeta` — every mark of the syntax stands for itself after a backslash
-/

namespace MotifSearch

/-- Why a written match expression is refused. -/
inductive SyntaxError where
  | trailingBackslash
  | unknownEscape (c : Char)
  | unclosedClass
  | reversedRange (low high : Char)
  | classOperator
  | groupFlag
  | countedLoop
  | lineEnd
  | nothingToRepeat
  | unopenedGroup
  | unclosedGroup
  | tooDeep (limit : Nat)
  deriving DecidableEq

/-- What is wrong, in words. -/
def SyntaxError.message : SyntaxError → String
  | trailingBackslash => "nothing follows the last backslash"
  | unknownEscape c => s!"unknown escape of {c}"
  | unclosedClass => "unclosed character class"
  | reversedRange low high => s!"the range from {low} to {high} is reversed"
  | classOperator => "operators inside a character class are not supported"
  | groupFlag => "look-around and group flags are not supported"
  | countedLoop => "counted repetition is not supported"
  | lineEnd => "the end-of-line assertion is not supported"
  | nothingToRepeat => "there is nothing to repeat"
  | unopenedGroup => "unopened group"
  | unclosedGroup => "unclosed group"
  | tooDeep limit => s!"nested more than {limit} levels deep"

/-- A token of a written match expression. -/
inductive Token where
  /-- A character, a class, the dot or the line anchor. -/
  | atom (item : Regex)
  | openGroup (captures : Bool)
  | closeGroup
  | bar
  | loop (times : Repeat) (greedy : Bool)
  deriving DecidableEq

namespace Token

/-- Whether a character has a meaning of its own in the syntax. -/
def isMeta (c : Char) : Bool :=
  c ∈ ['\\', '.', '+', '*', '?', '(', ')', '|', '[', ']', '\x7b', '\x7d', '^', '$', '#', '&',
    '-', '~']

/-- The character that a backslash and `c` stand for: a control for some letters, and `c` itself
for the punctuation of ASCII but the angle brackets. -/
def escaped? (c : Char) : Option Char :=
  match c with
  | 'n' => some '\n'
  | 't' => some '\t'
  | 'r' => some '\r'
  | 'f' => some '\x0c'
  | 'v' => some '\x0b'
  | 'a' => some '\x07'
  | _ => if c.toNat < 128 && !c.isAlphanum && c != '<' && c != '>' then some c else none

theorem escaped?_of_isMeta {c : Char} (h : isMeta c = true) : escaped? c = some c := by
  simp only [isMeta, List.mem_cons, List.not_mem_nil, or_false, decide_eq_true_eq] at h
  rcases h with rfl | rfl | rfl | rfl | rfl | rfl | rfl | rfl | rfl | rfl | rfl | rfl | rfl |
    rfl | rfl | rfl | rfl | rfl <;> decide

/-- How far the member of a class that is being read has come. -/
inductive Pending where
  /-- Nothing but hyphens has been read since the opening bracket. -/
  | first
  /-- The last member is complete. -/
  | between
  /-- A character that is a member by itself unless a hyphen makes it the start of a range. -/
  | after (c : Char)
  /-- The start of a range and its hyphen. -/
  | rangeFrom (low : Char)
  deriving DecidableEq

/-- A class whose closing bracket has not been read yet. Its complete members are kept with the
latest one first. -/
structure OpenClass where
  negated : Bool
  items : List ClassItem
  pending : Pending
  deriving DecidableEq

namespace OpenClass

/-- The members read so far, a pending character included. -/
def flushed (cls : OpenClass) : List ClassItem :=
  match cls.pending with
  | .after c => .single c :: cls.items
  | _ => cls.items

/-- Read one literal or escaped character of the class. -/
def push (cls : OpenClass) (c : Char) : Except SyntaxError OpenClass :=
  match cls.pending with
  | .rangeFrom low =>
    if low ≤ c then
      .ok { cls with items := .range low c :: cls.items, pending := .between }
    else .error (.reversedRange low c)
  | _ => .ok { cls with items := cls.flushed, pending := .after c }

/-- Read a character that can only be a member by itself. -/
def pushSingle (cls : OpenClass) (c : Char) (pending : Pending) : OpenClass :=
  { cls with items := .single c :: cls.flushed, pending }

/-- The set that the class names once it is closed. -/
def close (cls : OpenClass) : CharSet :=
  if cls.negated then .noneOf cls.flushed.reverse else .oneOf cls.flushed.reverse

/-- Whether a character and the one after it are a class operator or open a nested class. -/
def isOperator (cls : OpenClass) (c : Char) (rest : List Char) : Bool :=
  match cls.pending with
  | .rangeFrom _ => false
  | _ => c == '[' || ((c == '&' || c == '-' || c == '~') && rest.head? == some c)

/-- Read one character of the class, given those after it. -/
def step (cls : OpenClass) (c : Char) (rest : List Char) : Except SyntaxError OpenClass :=
  if cls.pending = .first ∧ c = '-' then .ok (cls.pushSingle '-' .first)
  else if cls.pending = .first ∧ c = ']' then .ok (cls.pushSingle ']' .between)
  else if cls.isOperator c rest then .error .classOperator
  else
    match cls.pending, c with
    | .after low, '-' =>
      if rest.head? = some ']' then .ok { cls with items := cls.flushed, pending := .after '-' }
      else .ok { cls with pending := .rangeFrom low }
    | _, _ => cls.push c

/-- Whether a closing bracket ends the class here: it does not in the first place, nor as the end
of a range. -/
def canClose (cls : OpenClass) : Bool :=
  match cls.pending with
  | .first => !cls.items.isEmpty
  | .rangeFrom _ => false
  | _ => true

end OpenClass

/-- The token of a loop mark, and whether a question mark after it makes it prefer fewer
iterations. -/
def loopMark? : Char → Option Repeat
  | '?' => some .optional
  | '+' => some .oneOrMore
  | '*' => some .zeroOrMore
  | _ => none

/-- The token of a character outside a class that neither opens anything nor is a loop mark. -/
def ofChar : Char → Except SyntaxError Token
  | '.' => .ok (.atom (.chars .inLine))
  | '^' => .ok (.atom .lineStart)
  | '|' => .ok .bar
  | ')' => .ok .closeGroup
  | '$' => .error .lineEnd
  | '\x7b' => .error .countedLoop
  | c => .ok (.atom (.chars (.single c)))

/-- The tokens of a text. The first argument is the class that is open at its beginning, if any. -/
def scan : Option OpenClass → List Char → Except SyntaxError (List Token)
  | none, [] => .ok []
  | some _, [] => .error .unclosedClass
  | none, '\\' :: [] => .error .trailingBackslash
  | none, '\\' :: c :: rest =>
    match escaped? c with
    | some d => (atom (.chars (.single d)) :: ·) <$> scan none rest
    | none => .error (.unknownEscape c)
  | none, '[' :: '^' :: rest => scan (some ⟨true, [], .first⟩) rest
  | none, '[' :: rest => scan (some ⟨false, [], .first⟩) rest
  | none, '(' :: '?' :: ':' :: rest => (openGroup false :: ·) <$> scan none rest
  | none, '(' :: '?' :: _ => .error .groupFlag
  | none, '(' :: rest => (openGroup true :: ·) <$> scan none rest
  -- A loop mark takes the question mark after it; that after another character is one by itself.
  | none, c :: '?' :: rest =>
    match loopMark? c with
    | some times => (loop times false :: ·) <$> scan none rest
    | none => do
      let token ← ofChar c
      (token :: ·) <$> scan none ('?' :: rest)
  | none, c :: rest =>
    match loopMark? c with
    | some times => (loop times true :: ·) <$> scan none rest
    | none => do
      let token ← ofChar c
      (token :: ·) <$> scan none rest
  | some _, '\\' :: [] => .error .trailingBackslash
  | some cls, '\\' :: c :: rest =>
    match escaped? c with
    | some d => do
      let cls ← cls.push d
      scan (some cls) rest
    | none => .error (.unknownEscape c)
  | some cls, c :: rest =>
    -- In the first place and as the end of a range, the bracket is a member or a fault.
    if c = ']' ∧ cls.canClose then (atom (.chars cls.close) :: ·) <$> scan none rest
    else do
      let cls ← cls.step c rest
      scan (some cls) rest

end Token

end MotifSearch
