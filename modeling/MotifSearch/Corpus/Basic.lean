import MotifSearch.Kern.Voices
import MotifSearch.Search.Basic
import MotifSearch.Search.Settings

/-!
# A corpus of scores

Scores are kept in the order in which they were added, each with an id and a title. A search ranks
the scores that match by their numbers of matches; scores with equally many stay in order.

## Main definitions

* `Score`, `Score.countMatches` — a score and the number of matches in it
* `Corpus` — the scores, with `Corpus.add`, `Corpus.get`
* `Hit`, `Corpus.searchWith`, `Corpus.search` — the ranking
-/

namespace MotifSearch

/-- A score with its id and its title. -/
structure Score where
  id : UInt32
  title : List Char
  kern : List Char
  deriving DecidableEq

/-- The number of matches in a score. -/
def Score.countMatches (score : Score) (regex : Regex) : ScanMode → Nat
  | .whole => (regex.findAll score.kern).length
  | .voices => ((Kern.voices score.kern).flatMap regex.findAll).length

/-- A score that matches. -/
structure Hit where
  id : UInt32
  title : List Char
  matchCount : Nat
  deriving DecidableEq

/-- Scores in the order in which they were added. -/
structure Corpus where
  scores : List Score
  deriving DecidableEq

namespace Corpus

/-- The corpus without scores. -/
def empty : Corpus := ⟨[]⟩

/-- The number of scores. -/
def size (corpus : Corpus) : Nat :=
  corpus.scores.length

/-- Whether there are no scores. -/
def isEmpty (corpus : Corpus) : Bool :=
  corpus.scores.isEmpty

/-- The id after the highest one in use, as long as there is one. -/
def nextId (corpus : Corpus) : Option UInt32 :=
  match (corpus.scores.map fun score => score.id.toNat).max? with
  | none => some 0
  | some highest => if highest + 1 < UInt32.size then some (.ofNat (highest + 1)) else none

/-- Add a score under the next id. -/
def add (corpus : Corpus) (title kern : List Char) : Option (UInt32 × Corpus) :=
  corpus.nextId.map fun id => (id, ⟨corpus.scores ++ [⟨id, title, kern⟩]⟩)

/-- The first score with an id. -/
def get (corpus : Corpus) (id : UInt32) : Option Score :=
  corpus.scores.find? fun score => score.id == id

/-- The hit of a score, if there are matches in it. -/
def hit? (regex : Regex) (mode : ScanMode) (score : Score) : Option Hit :=
  let count := score.countMatches regex mode
  if 0 < count then some ⟨score.id, score.title, count⟩ else none

/-- The scores with matches, those with more matches first. -/
def searchWith (corpus : Corpus) (regex : Regex) (mode : ScanMode) : List Hit :=
  (corpus.scores.filterMap (hit? regex mode)).mergeSort fun first second =>
    second.matchCount ≤ first.matchCount

/-- The scores with matches of an expression, those with more matches first. -/
def search (corpus : Corpus) (expression : List Char) (mode : ScanMode) :
    Except SearchError (List Hit) :=
  (readExpression expression).map fun regex => corpus.searchWith regex mode

end Corpus

end MotifSearch
