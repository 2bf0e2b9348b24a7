import MotifSearch.Corpus.Basic
import MotifSearch.Json.Render

/-!
# Saved corpora

A corpus is saved as a JSON array of its scores.

## Main definitions

* `Score.toJson`, `Score.ofJson` — a score
* `Corpus.toJson`, `Corpus.ofJson` — a corpus
* `Corpus.save`, `Corpus.load` — its text
* `Hit.toJson` — a hit

## Main results

* `ofJson_toJson` — a saved corpus is read back
-/

namespace MotifSearch

namespace Score

def toJson (score : Score) : Json :=
  .record [("id", .nat score.id.toNat), ("title", .text score.title),
    ("kern_data", .text score.kern)]

def ofJson : Json.Decoder Score := fun json => do
  let record ← Json.Record.ofJson ["id", "title", "kern_data"] json
  let id ← record.required "id" Json.decodeUInt32
  let title ← record.required "title" Json.decodeText
  let kern ← record.required "kern_data" Json.decodeText
  .ok { id, title, kern }

theorem decode_encode (score : Score) : ofJson score.toJson = .ok score := by
  have hrecord : Json.Record.ofJson ["id", "title", "kern_data"] score.toJson =
      .ok ⟨false, [("id".toList, .nat score.id.toNat), ("title".toList, .text score.title),
        ("kern_data".toList, .text score.kern)]⟩ :=
    Json.Record.ofJson_record (by simp)
  simp only [ofJson, hrecord, bind, Except.bind]
  simp [Json.Record.required, Json.Record.find?, List.lookup_cons]

end Score

namespace Corpus

def toJson (corpus : Corpus) : Json :=
  .list Score.toJson corpus.scores

def ofJson : Json.Decoder Corpus := fun json =>
  Corpus.mk <$> Json.decodeList Score.ofJson json

/-- The text that a corpus is saved as. -/
def save (corpus : Corpus) : List Char :=
  corpus.toJson.render

/-- The corpus that a text saves. -/
def load (text : List Char) : Except JsonError Corpus := do
  ofJson (← Json.parse text)

/-- A saved corpus is read back. -/
theorem ofJson_toJson (corpus : Corpus) : ofJson corpus.toJson = .ok corpus := by
  simp [ofJson, toJson, Json.decodeList_list fun score _ => Score.decode_encode score,
    Functor.map, Except.map]

end Corpus

namespace Hit

def toJson (hit : Hit) : Json :=
  .record [("id", .nat hit.id.toNat), ("title", .text hit.title),
    ("match_count", .nat hit.matchCount)]

end Hit

end MotifSearch
