import Percept.GetWindow

/-! The embedder task's records and the tool `search_events`: the best vectors of the index are
looked up in the cold store, and those without an event there are skipped. -/
namespace Percept

/-- `s.trim().is_empty()`. -/
def isBlank (s : String) : Bool := s.toList.all isWhiteSpace

/-- The longest prefix of whole characters within so many bytes. -/
def prefixWithin : ℕ → List Char → List Char
  | _, [] => []
  | n, c::cs => if c.utf8Size ≤ n then c::prefixWithin (n-c.utf8Size) cs else []

def truncateUtf8 (s : String) (maxBytes : ℕ) : String × Bool :=
  if s.utf8ByteSize ≤ maxBytes then (s,false)
  else (String.ofList (prefixWithin maxBytes s.toList),true)

def embedTruncateBytes : ℕ := 2048

/-- An embedding model; a vector is given by the bits of its components. -/
structure Embedder where
  embed : String → List UInt32
  dim : ℕ
  modelId : String

/-- The vector of an event is computed from its payload alone. -/
def buildRecord (embedder : Embedder) (e : Event) : VectorRecord :=
  let (input,truncated) := truncateUtf8 e.semantic.toText embedTruncateBytes
  { eventId := e.eventId
    sourceId := e.sourceId
    kind := e.kind
    tsMsUtc := e.tsMsUtc
    truncated
    modelId := embedder.modelId
    vector := embedder.embed input }

structure TimeRange where
  startMs : Int64
  endMs : Int64

structure SearchEventsArgs where
  query : String
  timeRange : Option TimeRange := none
  sourceFilter : Option (List String) := none
  kindFilter : Option (List String) := none
  limit : Option UInt32 := none

def defaultSearchLimit : UInt32 := 10

def maxSearchLimit : UInt32 := 50

namespace SearchEventsArgs

/-- `limit.unwrap_or(DEFAULT_SEARCH_LIMIT).clamp(1, MAX_SEARCH_LIMIT)`. -/
def topK (args : SearchEventsArgs) : ℕ :=
  max 1 (min (args.limit.getD defaultSearchLimit).toNat maxSearchLimit.toNat)

def filter (args : SearchEventsArgs) : VectorFilter :=
  ⟨args.timeRange.map TimeRange.startMs,args.timeRange.map TimeRange.endMs,args.sourceFilter,
    args.kindFilter⟩

theorem topK_pos (args : SearchEventsArgs) : 0 < args.topK := Nat.lt_of_lt_of_le Nat.zero_lt_one
  (Nat.le_max_left _ _)

end SearchEventsArgs

structure SearchHitOut (S : Type) where
  event : Event
  score : S
  truncated : Bool

variable {S : Type} [LinearOrder S]

/-- A hit whose event is not in the store is skipped. -/
def hydrate (store : ColdStore) (hits : List (SearchHit S)) : List (SearchHitOut S) :=
  hits.filterMap fun hit => (store.getById hit.eventId).map fun event =>
    ⟨event,hit.score,hit.truncated⟩

def searchEvents (gs : Globset) (cosine : List UInt32 → List UInt32 → S)
    (vectorIndex : Option VectorIndex) (embedder : Option Embedder) (coldStore : Option ColdStore)
    (args : SearchEventsArgs) : Except ToolError (List (SearchHitOut S)) :=
  match vectorIndex,embedder,coldStore with
  | none, _, _ => .error .noVectorIndex
  | _, none, _ => .error .noVectorIndex
  | _, _, none => .error .noColdStore
  | some index, some embedder, some store =>
    if isBlank args.query then .error .emptyQuery
    else match args.timeRange.filter fun t => t.endMs ≤ t.startMs with
      | some t => .error (.invalidRange t.startMs t.endMs)
      | none =>
        match index.searchKn gs cosine (embedder.embed args.query) args.topK args.filter with
        | .error e => .error (.vector e)
        | .ok hits => .ok (hydrate store hits)

/-- A request that gets an answer, and the filters it is answered with. -/
structure Answered (gs : Globset) (args : SearchEventsArgs)
    (sourceGlobs kindGlobs : Option (String → Bool)) : Prop where
  query : isBlank args.query = false
  range : ∀ t, args.timeRange = some t → t.startMs < t.endMs
  source : gs.compile VectorError.decode args.sourceFilter = .ok sourceGlobs
  kind : gs.compile VectorError.decode args.kindFilter = .ok kindGlobs

section

variable {gs : Globset} {cosine : List UInt32 → List UInt32 → S} {index : VectorIndex}
  {embedder : Embedder} {store : ColdStore} {args : SearchEventsArgs}
  {sourceGlobs kindGlobs : Option (String → Bool)}

/-- The vectors that a request selects, as scored hits. -/
def candidates (cosine : List UInt32 → List UInt32 → S) (index : VectorIndex) (embedder : Embedder)
    (args : SearchEventsArgs) (sourceGlobs kindGlobs : Option (String → Bool)) :
    List (SearchHit S) :=
  (index.rows.filter (VectorIndex.selects args.filter sourceGlobs kindGlobs)).map
    (VectorIndex.hit cosine (embedder.embed args.query))

/-- The best hits, by descending score. -/
def ranked (k : ℕ) (hits : List (SearchHit S)) : List (SearchHit S) :=
  (TopK.select SearchHit.score k hits).insertionSort fun a b => b.score ≤ a.score

theorem searchEvents_answered (h : Answered gs args sourceGlobs kindGlobs) :
    searchEvents gs cosine (some index) (some embedder) (some store) args =
      .ok (hydrate store
        (ranked args.topK (candidates cosine index embedder args sourceGlobs kindGlobs))) := by
  have hrange : (args.timeRange.filter fun t => t.endMs ≤ t.startMs) = none := by
    cases ht : args.timeRange with
    | none => rfl
    | some t => simpa using h.range t ht
  simp only [searchEvents,h.query,Bool.false_eq_true,if_false,hrange]
  have hsource : gs.compile VectorError.decode args.filter.sourceFilter = .ok sourceGlobs := h.source
  have hkind : gs.compile VectorError.decode args.filter.kindFilter = .ok kindGlobs := h.kind
  simp only [VectorIndex.searchKn,hsource,hkind]
  rfl

/-- Only such a request gets an answer. -/
theorem answered_of_ok {out : List (SearchHitOut S)}
    (hok : searchEvents gs cosine (some index) (some embedder) (some store) args = .ok out) :
    ∃ sourceGlobs kindGlobs, Answered gs args sourceGlobs kindGlobs := by
  simp only [searchEvents] at hok
  split at hok
  next => cases hok
  next hquery =>
    split at hok
    next => cases hok
    next hrange =>
      have hrange' : ∀ t, args.timeRange = some t → t.startMs < t.endMs := by
        intro t ht
        rw [ht] at hrange
        simpa using hrange
      cases hsource : gs.compile VectorError.decode args.sourceFilter with
      | error e =>
        have hsource' : gs.compile VectorError.decode args.filter.sourceFilter = .error e := hsource
        simp only [VectorIndex.searchKn,hsource'] at hok
        cases hok
      | ok sourceGlobs =>
        cases hkind : gs.compile VectorError.decode args.kindFilter with
        | error e =>
          have hsource' : gs.compile VectorError.decode args.filter.sourceFilter =
            .ok sourceGlobs := hsource
          have hkind' : gs.compile VectorError.decode args.filter.kindFilter = .error e := hkind
          simp only [VectorIndex.searchKn,hsource',hkind'] at hok
          cases hok
        | ok kindGlobs =>
          exact ⟨sourceGlobs,kindGlobs,⟨by simpa using hquery,hrange',hsource,hkind⟩⟩

theorem ranked_perm {k : ℕ} (hits : List (SearchHit S)) :
    (ranked k hits).Perm (TopK.select SearchHit.score k hits) := List.perm_insertionSort _ _

theorem ranked_sorted {k : ℕ} (hits : List (SearchHit S)) :
    (ranked k hits).Pairwise fun a b => b.score ≤ a.score := by
  have : Std.Total fun a b : SearchHit S => b.score ≤ a.score := ⟨fun _ _ => le_total _ _⟩
  have : IsTrans (SearchHit S) fun a b => b.score ≤ a.score := ⟨fun _ _ _ hab hbc => hbc.trans hab⟩
  exact List.pairwise_insertionSort _ _

/-- An answer is made of candidates and of the events that the store has under their ids. -/
theorem mem_hydrate_ranked {k : ℕ} (hk : 0 < k) {hits : List (SearchHit S)} {o : SearchHitOut S}
    (ho : o ∈ hydrate store (ranked k hits)) : ∃ hit ∈ hits,
      store.getById hit.eventId = some o.event ∧ o.score = hit.score ∧
        o.truncated = hit.truncated := by
  obtain ⟨hit,hhit,hmap⟩ := List.mem_filterMap.mp ho
  obtain ⟨event,hevent,rfl⟩ := Option.map_eq_some_iff.mp hmap
  obtain ⟨rest,hbest⟩ := TopK.select_best SearchHit.score hk hits
  have hmem := hbest.perm.subset (List.mem_append_left rest ((ranked_perm hits).subset hhit))
  exact ⟨hit,hmem,hevent,rfl,rfl⟩

end

end Percept
