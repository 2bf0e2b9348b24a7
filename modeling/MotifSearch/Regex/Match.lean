import MotifSearch.Regex.Basic

/-!
# Matching at one position

A match expression can match a text in several ways, and it prefers one of them: earlier branches
over later ones, more iterations of a greedy loop over fewer. This file finds the preferred match
that begins at a given position.

What is left to be matched is a list of parts. The ways to go on from a position are a list of moves
in order of preference: stop there, or read one character and go on with other parts. The moves of
all lists of parts that are still in play are computed together, one character of the text after the
other. A move less preferred than stopping can be forgotten as soon as one can stop, and of two
equal lists of parts the one that comes first is enough; so the work done for one character depends
on the expression alone.

Between two characters a match never comes back to a choice that it has made already, or else loops
over something that can be empty would have no end. Choices are told apart by the address of the
subexpression that offers them: the children of the subexpression at `n` are at `2 * n` and
`2 * n + 1`. A loop has one child only, so that `2 * n + 1` is free for the choice between another
iteration and the end of the loop. That choice stands for the one before the first iteration, too,
unless the body of the loop can be empty; in that case a loop that may be left out is one that has
at least one iteration, or else is left out.

## Main definitions

* `Part` — something that is left to be matched
* `Move` — one way to go on
* `Regex.moves`, `Part.moves` — the ways to go on, in order of preference
* `Regex.preferredLength` — how many characters the preferred match at a position reads

## Main results

* `read_mem_stopOnce`, `any_isStop_stopOnce` — leaving out repeated stops changes nothing else
-/

namespace MotifSearch

/-- Something that is left to be matched. -/
inductive Part where
  /-- All of the expression at an address. -/
  | whole (address : Nat) (regex : Regex)
  /-- The further iterations of the loop at an address, one of which has just ended. -/
  | again (address : Nat) (greedy : Bool) (body : Regex)
  deriving DecidableEq

/-- One way to go on with a match. -/
inductive Move where
  /-- Stop, having passed the choices at some addresses since the last character. -/
  | stop (passed : List Nat)
  /-- Read one character of the set, then go on with the parts that are left. -/
  | read (set : CharSet) (left : List Part)
  deriving DecidableEq

namespace Move

/-- Whether a move is to stop. -/
def isStop : Move → Bool
  | stop _ => true
  | read _ _ => false

end Move

/-- What surrounds a position, as far as assertions can see it. -/
structure Place where
  /-- Whether a line begins here. -/
  atLineStart : Bool
  /-- The character that follows, if there is one. -/
  next : Option Char
  deriving DecidableEq

namespace Regex

/-- A list of moves without all stops but the first. -/
def stopOnce : List Move → List Move
  | [] => []
  | .stop passed :: moves => .stop passed :: moves.filter (!·.isStop)
  | .read set left :: moves => .read set left :: stopOnce moves

@[simp] theorem read_mem_stopOnce {set : CharSet} {left : List Part} {moves : List Move} :
    .read set left ∈ stopOnce moves ↔ .read set left ∈ moves := by
  induction moves with
  | nil => rfl
  | cons first rest ih =>
    cases first with
    | stop passed => simp [stopOnce, Move.isStop]
    | read otherSet otherLeft => simp [stopOnce, ih]

@[simp] theorem any_isStop_stopOnce (moves : List Move) :
    (stopOnce moves).any Move.isStop = moves.any Move.isStop := by
  induction moves with
  | nil => rfl
  | cons first rest ih =>
    cases first with
    | stop passed => simp [stopOnce, Move.isStop]
    | read set left => simp [stopOnce, Move.isStop, ih]

/-- The moves of something with other parts after it: where it stops, `andThen` goes on, and where
it reads, the other parts are left as well. -/
def continueWith (andThen : List Nat → List Move) (after : List Part) (moves : List Move) :
    List Move :=
  moves.flatMap fun
    | .stop passed => andThen passed
    | .read set left => [.read set (left ++ after)]

/-- The choice at an address between the moves of something and stopping right away. A greedy choice
prefers the former. A choice that has been passed is not made again. -/
def choose (address : Nat) (greedy : Bool) (moves : List Nat → List Move) (passed : List Nat) :
    List Move :=
  if address ∈ passed then []
  else
    let passed := address :: passed
    stopOnce (if greedy then moves passed ++ [.stop passed] else .stop passed :: moves passed)

/-- The moves of the further iterations of the loop at an address, given those of its body. An
iteration that reads nothing leads nowhere. -/
def againMoves (address : Nat) (greedy : Bool) (body : Regex) (moves : List Nat → List Move)
    (passed : List Nat) : List Move :=
  choose (2 * address + 1) greedy
    (fun passed => continueWith (fun _ => []) [.again address greedy body] (moves passed)) passed

/-- The moves of the loop at an address that has at least one iteration, given those of its body. If
the first iteration reads nothing, the loop ends. -/
def firstMoves (address : Nat) (greedy : Bool) (body : Regex) (moves : List Nat → List Move)
    (passed : List Nat) : List Move :=
  let ended (passed : List Nat) : List Move :=
    if 2 * address + 1 ∈ passed then [] else [.stop ((2 * address + 1) :: passed)]
  continueWith ended [.again address greedy body] (moves passed)

/-- The ways to go on with the expression at an address, the preferred one first. The last argument
has the addresses of the choices that have been passed since the last character. -/
def moves (place : Place) : Regex → (address : Nat) → (passed : List Nat) → List Move
  | empty, _, passed => [.stop passed]
  | chars set, _, _ => [.read set []]
  | lineStart, _, passed => if place.atLineStart then [.stop passed] else []
  | notAhead set, _, passed => if place.next.any set.contains then [] else [.stop passed]
  | group _ body, address, passed => body.moves place (2 * address) passed
  | cat first rest, address, passed =>
    continueWith (rest.moves place (2 * address + 1)) [.whole (2 * address + 1) rest]
      (first.moves place (2 * address) passed)
  | alt first rest, address, passed =>
    if address ∈ passed then []
    else
      let passed := address :: passed
      stopOnce (first.moves place (2 * address) passed ++
        rest.moves place (2 * address + 1) passed)
  | loop .optional greedy body, address, passed =>
    choose address greedy (body.moves place (2 * address)) passed
  | loop .oneOrMore greedy body, address, passed =>
    firstMoves address greedy body (body.moves place (2 * address)) passed
  | loop .zeroOrMore greedy body, address, passed =>
    let inner := body.moves place (2 * address)
    -- Leaving the loop out must not be mistaken for ending it after an iteration that reads nothing.
    if body.nullable then
      choose address greedy (firstMoves address greedy body inner) passed
    else againMoves address greedy body inner passed

end Regex

namespace Part

/-- The ways to go on with a part. -/
def moves (place : Place) : Part → List Nat → List Move
  | whole address regex => regex.moves place address
  | again address greedy body =>
    Regex.againMoves address greedy body (body.moves place (2 * address))

/-- The ways to go on with several parts, one after the other. -/
def movesOfAll (place : Place) : List Part → List Nat → List Move
  | [], passed => [.stop passed]
  | part :: parts, passed =>
    Regex.continueWith (movesOfAll place parts) parts (part.moves place passed)

end Part

namespace Regex

/-- What is left of the parts in play after reading `c`. -/
def advance (c : Char) (moves : List Move) : List (List Part) :=
  (moves.filterMap fun
    | .read set left => if set.contains c then some left else none
    | .stop _ => none).eraseDups

/-- The length of the preferred match among the parts in play, given that `count` characters have
been read and that `best` is the length of the match that was preferred so far. -/
def run : List (List Part) → Bool → List Char → (count : Nat) → (best : Option Nat) → Option Nat
  | active, atLineStart, [], count, best =>
    let moves := active.flatMap fun parts => Part.movesOfAll ⟨atLineStart, none⟩ parts []
    if moves.any Move.isStop then some count else best
  | active, atLineStart, c :: text, count, best =>
    let moves := active.flatMap fun parts => Part.movesOfAll ⟨atLineStart, some c⟩ parts []
    let best := if moves.any Move.isStop then some count else best
    -- What comes after the first stop is less preferred than a match that is known to exist.
    match advance c (moves.takeWhile (!·.isStop)) with
    | [] => best
    | parts :: others => run (parts :: others) (c == '\n') text (count + 1) best

/-- The address of a whole expression. -/
def rootAddress : Nat := 1

/-- The number of characters that the preferred match of an expression reads at the beginning of
`text`, if it matches there at all. -/
def preferredLength (regex : Regex) (atLineStart : Bool) (text : List Char) : Option Nat :=
  run [[.whole rootAddress regex]] atLineStart text 0 none

end Regex

end MotifSearch
