import Mathlib.Data.Finset.Card
import MotifSearch.Corpus.Basic
import MotifSearch.Proofs.Markup.Proper
import MotifSearch.Search.Cache

/-!
# A cache makes no difference

Whatever was asked of a cache before, it answers as an empty cache does: with the compiled pattern
and the syntax tree of its expression, or with the same error. The pattern whose entry is found may
be another one than the pattern that was asked for, but patterns with the same canonical text
compile to the same.

A request is taken as a program here, which looks up and changes the cache step by step, so that it
can be said of a cache what a request that fails leaves of it.

## Main definitions

* `CachedExpression.ofMarkup` — the answer without a cache
* `ExpressionCache.request` — a request as a program
* `CacheCall`, `ExpressionCache.answers`, `ExpressionCache.after` — calls, one after the other, and
  what comes of them
* `ExpressionCache.Remembers` — what there is to know about a cache

## Main results

* `get_eq_respond` — the program does what `ExpressionCache.get` does
* `run_transparent` — all answers are those without a cache
-/

namespace MotifSearch

/-- The compiled pattern of markup and the syntax tree of its expression. -/
def CachedExpression.ofMarkup (markup : List Char) : Except SearchError CachedExpression := do
  let compiled ← (CompiledPattern.ofMarkup markup).mapError SearchError.pattern
  let regex ← readExpression compiled.expression
  .ok ⟨compiled, regex⟩

namespace CachedExpression

/-- Patterns with the same canonical text make the same entry. -/
theorem ofPattern_eq_of_canonical_eq {pattern other : Pattern}
    (h : pattern.canonical = other.canonical) : ofPattern pattern = ofPattern other := by
  rw [ofPattern, ofPattern, Pattern.compile_eq_of_canonical_eq h]

variable {markup : List Char}

theorem ofMarkup_of_error {error : PatternError} (h : Pattern.ofMarkup markup = .error error) :
    ofMarkup markup = .error (.pattern error) := by
  rw [ofMarkup, CompiledPattern.ofMarkup, h]
  rfl

theorem ofMarkup_of_ok {pattern : Pattern} (h : Pattern.ofMarkup markup = .ok pattern) :
    ofMarkup markup = ofPattern pattern := by
  rw [ofMarkup, CompiledPattern.ofMarkup, h]
  rfl

variable {entry : CachedExpression}

theorem compiled_of_ofPattern {pattern : Pattern} (h : ofPattern pattern = .ok entry) :
    entry.compiled = pattern.compile ∧ readExpression pattern.expression = .ok entry.regex := by
  rw [ofPattern] at h
  cases hregex : readExpression pattern.compile.expression with
  | error e =>
    rw [hregex] at h
    cases h
  | ok regex =>
    rw [hregex] at h
    cases h
    exact ⟨rfl, hregex⟩

/-- The tree of an entry is that of its expression. -/
theorem readExpression_of_ofMarkup (h : ofMarkup markup = .ok entry) :
    readExpression entry.compiled.expression = .ok entry.regex := by
  cases hpattern : Pattern.ofMarkup markup with
  | error e =>
    rw [ofMarkup_of_error hpattern] at h
    cases h
  | ok pattern =>
    rw [ofMarkup_of_ok hpattern] at h
    obtain ⟨hcompiled, hregex⟩ := compiled_of_ofPattern h
    rw [hcompiled]
    exact hregex

/-- The canonical text of markup, if there is an expression for it. -/
def key? (markup : List Char) : Option (List Char) :=
  (ofMarkup markup).toOption.map fun entry => entry.compiled.canonical

end CachedExpression

open CachedExpression (ofPattern key?)
open Markup (layerDocument)

namespace ExpressionCache

/-- A request. The cache is changed last, after everything that can fail. -/
def request (markup : List Char) :
    StateM ExpressionCache (Except SearchError CachedExpression) := do
  match Pattern.ofMarkup markup with
  | .error cause => return .error (.pattern cause)
  | .ok pattern =>
    let cache ← getThe ExpressionCache
    match cache.entries.lookup pattern.canonical with
    | some entry => return .ok entry
    | none =>
      match ofPattern pattern with
      | .error cause => return .error cause
      | .ok entry =>
        set (ExpressionCache.mk ((pattern.canonical, entry) :: cache.entries))
        return .ok entry

/-- The answer to a request, and the cache after it. -/
def respond (markup : List Char) (cache : ExpressionCache) :
    Except SearchError CachedExpression × ExpressionCache :=
  ((request markup).run cache).run

section Request

variable {cache : ExpressionCache} {markup : List Char} {pattern : Pattern}

/-- What a request does with a pattern. -/
theorem respond_of_ok (h : Pattern.ofMarkup markup = .ok pattern) :
    respond markup cache = match cache.entries.lookup pattern.canonical with
      | some entry => (.ok entry, cache)
      | none => match ofPattern pattern with
        | .ok entry => (.ok entry, ⟨(pattern.canonical, entry) :: cache.entries⟩)
        | .error error => (.error error, cache) := by
  rw [respond, request, h]
  cases hentry : cache.entries.lookup pattern.canonical with
  | some entry => simp [hentry]
  | none =>
    cases hfresh : ofPattern pattern with
    | error e => simp [hentry, hfresh]
    | ok entry => simp [hentry, hfresh]

theorem respond_of_error {error : PatternError} (h : Pattern.ofMarkup markup = .error error) :
    respond markup cache = (.error (.pattern error), cache) := by
  rw [respond, request, h]
  rfl

/-- A request that fails leaves the cache as it is. -/
theorem snd_respond_of_error {error : SearchError} (h : (respond markup cache).1 = .error error) :
    (respond markup cache).2 = cache := by
  cases hpattern : Pattern.ofMarkup markup with
  | error e => rw [respond_of_error hpattern]
  | ok pattern =>
    rw [respond_of_ok hpattern] at h ⊢
    cases hentry : cache.entries.lookup pattern.canonical with
    | some entry => rfl
    | none =>
      cases hfresh : ofPattern pattern with
      | error e => rfl
      | ok entry =>
        rw [hentry, hfresh] at h
        cases h

/-- A request answers and changes the cache as `get` does. -/
theorem get_eq_respond : cache.get markup =
    (respond markup cache).1.map fun entry => (entry, (respond markup cache).2) := by
  cases hpattern : Pattern.ofMarkup markup with
  | error e =>
    rw [respond_of_error hpattern, get, hpattern]
    rfl
  | ok pattern =>
    rw [respond_of_ok hpattern, get, hpattern]
    dsimp only [mapError_ok, bind, Except.bind]
    cases cache.entries.lookup pattern.canonical with
    | some entry => rfl
    | none => cases ofPattern pattern <;> rfl

end Request

end ExpressionCache

/-- A call on a cache. -/
inductive CacheCall where
  /-- Ask for the expression of markup. -/
  | request (markup : List Char)
  /-- Forget everything. -/
  | clear

namespace ExpressionCache

/-- The calls, one after the other, with the answers to the requests among them. -/
def run : List CacheCall → StateM ExpressionCache (List (Except SearchError CachedExpression))
  | [] => return []
  | .request markup :: calls => do
    let answer ← request markup
    let answers ← run calls
    return answer :: answers
  | .clear :: calls => do
    modify clear
    run calls

/-- The answers to the requests among some calls on an empty cache. -/
def answers (calls : List CacheCall) : List (Except SearchError CachedExpression) :=
  ((run calls).run empty).run.1

/-- The cache after some calls on an empty one. -/
def after (calls : List CacheCall) : ExpressionCache :=
  ((run calls).run empty).run.2

end ExpressionCache

namespace CacheCall

/-- The requests among some calls. -/
def requests (calls : List CacheCall) : List (List Char) :=
  calls.filterMap fun
    | request markup => some markup
    | clear => none

/-- The requests since a call, on top of those before it. -/
def since (markups : List (List Char)) : CacheCall → List (List Char)
  | request markup => markups ++ [markup]
  | clear => []

/-- The canonical texts of the requests since the last clear that were answered with an
expression. -/
def keys (calls : List CacheCall) : List (List Char) :=
  (calls.foldl since []).filterMap key?

end CacheCall

namespace ExpressionCache

/-- What there is to know about a cache after some requests: each key has one entry, the keys are
the canonical texts of the requests that were answered with an expression, and an entry is that of
all patterns with its key. -/
structure Remembers (cache : ExpressionCache) (markups : List (List Char)) : Prop where
  nodup : (cache.entries.map Prod.fst).Nodup
  mem_keys : ∀ key, key ∈ cache.entries.map Prod.fst ↔ key ∈ markups.filterMap key?
  entry : ∀ key entry, (key, entry) ∈ cache.entries →
    ∀ pattern : Pattern, pattern.canonical = key → ofPattern pattern = .ok entry

namespace Remembers

variable {cache : ExpressionCache} {markups : List (List Char)}

theorem empty : Remembers empty [] :=
  ⟨List.nodup_nil, by simp [ExpressionCache.empty], by simp [ExpressionCache.empty]⟩

/-- There are as many entries as there are different keys. -/
theorem size_eq (h : Remembers cache markups) :
    cache.size = (markups.filterMap key?).toFinset.card := by
  have hkeys : (cache.entries.map Prod.fst).toFinset = (markups.filterMap key?).toFinset := by
    ext key
    rw [List.mem_toFinset, List.mem_toFinset, h.mem_keys]
  rw [size, ← hkeys, List.toFinset_card_of_nodup h.nodup, List.length_map]

/-- A request that changes nothing. -/
theorem of_key (h : Remembers cache markups) {markup : List Char}
    (hkey : ∀ key ∈ key? markup, key ∈ cache.entries.map Prod.fst) :
    Remembers cache (markups ++ [markup]) := by
  refine ⟨h.nodup, fun key => ?_, h.entry⟩
  rw [List.filterMap_append, List.mem_append, ← h.mem_keys]
  refine ⟨Or.inl, fun hmem => hmem.elim id fun hmem => hkey key ?_⟩
  simpa using hmem

/-- A request is answered as without a cache, and is remembered. -/
theorem respond (h : Remembers cache markups) (markup : List Char) :
    (respond markup cache).1 = CachedExpression.ofMarkup markup ∧
      Remembers (respond markup cache).2 (markups ++ [markup]) := by
  cases hpattern : Pattern.ofMarkup markup with
  | error e =>
    have hanswer := CachedExpression.ofMarkup_of_error hpattern
    rw [respond_of_error hpattern, hanswer]
    refine ⟨rfl, h.of_key ?_⟩
    rw [key?, hanswer]
    simp [Except.toOption]
  | ok pattern =>
    have hanswer := CachedExpression.ofMarkup_of_ok hpattern
    have hkey : ∀ entry, ofPattern pattern = .ok entry → key? markup = some pattern.canonical := by
      intro entry hentry
      rw [key?, hanswer, hentry]
      exact congrArg (fun compiled : CompiledPattern => some compiled.canonical)
        (CachedExpression.compiled_of_ofPattern hentry).1
    rw [respond_of_ok hpattern, hanswer]
    cases hlookup : cache.entries.lookup pattern.canonical with
    | some entry =>
      -- The entry may come of another pattern, which compiles to the same.
      obtain ⟨before, after, heq, -⟩ := List.lookup_eq_some_iff.mp hlookup
      have hmem : (pattern.canonical, entry) ∈ cache.entries := by simp [heq]
      have hentry := h.entry _ entry hmem pattern rfl
      refine ⟨hentry.symm, h.of_key ?_⟩
      rw [hkey entry hentry]
      exact fun key hkey => (Option.some.inj hkey) ▸ List.mem_map_of_mem hmem
    | none =>
      cases hfresh : ofPattern pattern with
      | error e =>
        refine ⟨rfl, h.of_key ?_⟩
        rw [key?, hanswer, hfresh]
        simp [Except.toOption]
      | ok entry =>
        refine ⟨rfl, ?_, fun key => ?_, fun key other hmem => ?_⟩
        · refine List.nodup_cons.mpr ⟨fun hmem => ?_, h.nodup⟩
          obtain ⟨other, hother, heq⟩ := List.mem_map.mp hmem
          have hne := List.lookup_eq_none_iff.mp hlookup other hother
          simp [heq] at hne
        · rw [List.filterMap_append, List.mem_append, ← h.mem_keys, List.map_cons, List.mem_cons,
            or_comm]
          simp [hkey entry hfresh]
        · rcases List.mem_cons.mp hmem with heq | hmem
          · cases heq
            intro other hother
            rw [CachedExpression.ofPattern_eq_of_canonical_eq hother, hfresh]
          · exact h.entry key other hmem

end Remembers

/-- The answers to some calls are those without a cache, and what the cache remembers after them
are the requests since the last clear. -/
theorem Remembers.run {cache : ExpressionCache} {markups : List (List Char)}
    (h : Remembers cache markups) (calls : List CacheCall) :
    ((run calls).run cache).run.1 = (CacheCall.requests calls).map CachedExpression.ofMarkup ∧
      Remembers ((run calls).run cache).run.2 (calls.foldl CacheCall.since markups) := by
  induction calls generalizing cache markups with
  | nil => exact ⟨rfl, h⟩
  | cons call calls ih =>
    cases call with
    | clear => exact ih .empty
    | request markup =>
      obtain ⟨hanswer, hnext⟩ := h.respond markup
      obtain ⟨hanswers, hlast⟩ := ih hnext
      exact ⟨congrArg₂ List.cons hanswer hanswers, hlast⟩

/-- Every request is answered as without a cache, whatever the calls before it. A request that fails
leaves the cache as it is, the tree of an answer finds and ranks what its expression does, and the
size of the cache is the number of different canonical texts since the last clear. -/
theorem run_transparent (calls : List CacheCall) :
    answers calls = (CacheCall.requests calls).map CachedExpression.ofMarkup ∧
    (after calls).size = (CacheCall.keys calls).toFinset.card ∧
    ∀ markup,
      (respond markup (after calls)).1 = CachedExpression.ofMarkup markup ∧
      (after calls).get markup = (respond markup (after calls)).1.map
        (fun entry => (entry, (respond markup (after calls)).2)) ∧
      (∀ error, (respond markup (after calls)).1 = .error error →
        (respond markup (after calls)).2 = after calls) ∧
      ∀ entry, (respond markup (after calls)).1 = .ok entry →
        (∀ score, locate score entry.compiled.expression = .ok (entry.regex.findAll score)) ∧
        ∀ corpus mode, Corpus.search corpus entry.compiled.expression mode =
          .ok (corpus.searchWith entry.regex mode) := by
  obtain ⟨hanswers, hafter⟩ := Remembers.empty.run calls
  refine ⟨hanswers, hafter.size_eq, fun markup => ?_⟩
  obtain ⟨hanswer, -⟩ := Remembers.respond hafter markup
  refine ⟨hanswer, get_eq_respond, fun error => snd_respond_of_error, fun entry hentry => ?_⟩
  have hregex := CachedExpression.readExpression_of_ofMarkup (hanswer.symm.trans hentry)
  refine ⟨fun score => ?_, fun corpus mode => ?_⟩
  · rw [locate, hregex]
    rfl
  · rw [Corpus.search, hregex]
    rfl

/-- A note before the cache is cleared, and the same note in two spellings after that. -/
def sharingCalls : List CacheCall :=
  [.request (layerDocument "<note any-pitch='true'/>"), .clear,
    .request (layerDocument "<note/>"), .request (layerDocument "<note dur='4'/>")]

/-- The two spellings share an entry, and what is no pattern leaves the cache as it is. -/
theorem run_transparent_sharingCalls :
    (after sharingCalls).size = 1 ∧
    (respond (layerDocument "<rest/>") (after sharingCalls)).2 = after sharingCalls ∧
    ∃ entry, (respond (layerDocument "<note/>") (after sharingCalls)).1 = .ok entry ∧
      ∀ score, locate score entry.compiled.expression = .ok (entry.regex.findAll score) := by
  obtain ⟨-, hsize, hrespond⟩ := run_transparent sharingCalls
  have hcard : (CacheCall.keys sharingCalls).toFinset.card = 1 := by
    simp only [sharingCalls, layerDocument, String.toList_append]
    rw [String.toList_ofList, String.toList_ofList]
    decide +kernel
  have hrest : (CachedExpression.ofMarkup (layerDocument "<rest/>")).toOption.isSome = false := by
    rw [layerDocument, String.toList_append, String.toList_append, String.toList_ofList,
      String.toList_ofList, String.toList_ofList]
    decide +kernel
  have hnote : (CachedExpression.ofMarkup (layerDocument "<note/>")).toOption.isSome = true := by
    rw [layerDocument, String.toList_append, String.toList_append, String.toList_ofList,
      String.toList_ofList, String.toList_ofList]
    decide +kernel
  obtain ⟨hanswer, -, hleft, -⟩ := hrespond (layerDocument "<rest/>")
  obtain ⟨hother, -, -, hfound⟩ := hrespond (layerDocument "<note/>")
  rw [← hanswer] at hrest
  rw [← hother] at hnote
  refine ⟨hsize.trans hcard, ?_, ?_⟩
  · cases herror : (respond (layerDocument "<rest/>") (after sharingCalls)).1 with
    | error e => exact hleft e herror
    | ok entry =>
      rw [herror] at hrest
      cases hrest
  · cases hentry : (respond (layerDocument "<note/>") (after sharingCalls)).1 with
    | error e =>
      rw [hentry] at hnote
      cases hnote
    | ok entry => exact ⟨entry, rfl, (hfound entry hentry).1⟩

end ExpressionCache

end MotifSearch
