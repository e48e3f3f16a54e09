import Percept.NodeReads
import Percept.SearchBest

/-! What a search in a running node shows. The index is scanned once and the hits are looked up one by
one while the node goes on; an event reaches the index and the log by different ways. -/
namespace Percept

section Scan

variable {S : Type} [LinearOrder S]

/-- `search_events` up to the loop over its hits. -/
def searchScan (gs : Globset) (cosine : List UInt32 → List UInt32 → S) (vectorIndex : Option VectorIndex)
    (embedder : Option Embedder) (args : SearchEventsArgs) : Except ToolError (List (SearchHit S)) :=
  match vectorIndex,embedder with
  | none, _ => .error .noVectorIndex
  | _, none => .error .noVectorIndex
  | some index, some embedder =>
    if isBlank args.query then .error .emptyQuery
    else match args.timeRange.filter fun t => t.endMs ≤ t.startMs with
      | some t => .error (.invalidRange t.startMs t.endMs)
      | none =>
        match index.searchKn gs cosine (embedder.embed args.query) args.topK args.filter with
        | .error e => .error (.vector e)
        | .ok hits => .ok hits

theorem searchEvents_eq_scan (gs : Globset) (cosine : List UInt32 → List UInt32 → S)
    (vectorIndex : Option VectorIndex) (embedder : Option Embedder) (store : ColdStore)
    (args : SearchEventsArgs) : searchEvents gs cosine vectorIndex embedder (some store) args =
      (searchScan gs cosine vectorIndex embedder args).map (hydrate store) := by
  unfold searchEvents searchScan
  cases vectorIndex with
  | none => rfl
  | some index =>
    cases embedder with
    | none => rfl
    | some embedder =>
      dsimp only
      split
      · rfl
      · cases args.timeRange.filter fun t => t.endMs ≤ t.startMs with
        | some t => rfl
        | none =>
          dsimp only
          cases index.searchKn gs cosine (embedder.embed args.query) args.topK args.filter <;> rfl

variable {gs : Globset} {cosine : List UInt32 → List UInt32 → S} {index : VectorIndex} {embedder : Embedder}
  {args : SearchEventsArgs} {hits : List (SearchHit S)}

/-- The hits of a request are the best of its candidates. -/
theorem searchScan_ok (h : searchScan gs cosine (some index) (some embedder) args = .ok hits) :
    ∃ sourceGlobs kindGlobs, Answered gs args sourceGlobs kindGlobs ∧
      hits = ranked args.topK (candidates cosine index embedder args sourceGlobs kindGlobs) := by
  have hok : searchEvents gs cosine (some index) (some embedder) (some .openInMemory) args =
      .ok (hydrate .openInMemory hits) := by rw [searchEvents_eq_scan,h]; rfl
  obtain ⟨sourceGlobs,kindGlobs,hans⟩ := answered_of_ok hok
  refine ⟨sourceGlobs,kindGlobs,hans,?_⟩
  have hrange : (args.timeRange.filter fun t => t.endMs ≤ t.startMs) = none := by
    cases ht : args.timeRange with
    | none => rfl
    | some t => simpa using hans.range t ht
  have hsource : gs.compile VectorError.decode args.filter.sourceFilter = .ok sourceGlobs := hans.source
  have hkind : gs.compile VectorError.decode args.filter.kindFilter = .ok kindGlobs := hans.kind
  simp only [searchScan,hans.query,Bool.false_eq_true,if_false,hrange,VectorIndex.searchKn,hsource,hkind] at h
  exact (Except.ok.inj h).symm

theorem mem_ranked {k : ℕ} (hk : 0 < k) {hit : SearchHit S} (h : hit ∈ ranked k hits) : hit ∈ hits := by
  obtain ⟨rest,hbest⟩ := TopK.select_best SearchHit.score hk hits
  exact hbest.perm.subset (List.mem_append_left rest ((ranked_perm hits).subset h))

theorem length_ranked {k : ℕ} (hk : 0 < k) (hits : List (SearchHit S)) :
    (ranked k hits).length = min k hits.length := by
  obtain ⟨rest,hbest⟩ := TopK.select_best SearchHit.score hk hits
  rw [(ranked_perm hits).length_eq,hbest.length]

theorem nodup_ranked {k : ℕ} (hk : 0 < k) (hnd : (hits.map SearchHit.eventId).Nodup) :
    ((ranked k hits).map SearchHit.eventId).Nodup := by
  obtain ⟨rest,hbest⟩ := TopK.select_best SearchHit.score hk hits
  have hids := (hbest.perm.map SearchHit.eventId).nodup_iff.mpr hnd
  rw [List.map_append] at hids
  exact ((ranked_perm hits).map SearchHit.eventId).nodup_iff.mpr (List.nodup_append.mp hids).1

end Scan

/-- The vectors that an operation writes. -/
def StoreOp.records : StoreOp → List VectorRecord
  | .appendVectors records => records
  | .append _ | .sweep _ _ _ => []

/-- Records with ids of their own are appended as they are. -/
theorem VectorIndex.rows_append_openInMemory {records : List VectorRecord}
    (hids : (records.map fun r => r.eventId).Nodup) :
    (VectorIndex.openInMemory.append records).rows = records.map VectorRecord.toInMemoryRow := by
  induction records using List.reverseRecOn with
  | nil => rfl
  | append_singleton records r ih =>
    rw [List.map_append,List.map_singleton,List.nodup_append] at hids
    obtain ⟨hrecords,-,hnew⟩ := hids
    have hstep : VectorIndex.openInMemory.append (records ++ [r]) =
        (VectorIndex.openInMemory.append records).insert r := List.foldl_concat _ _ _ _
    have hnone : (records.map VectorRecord.toInMemoryRow).findIdx? (fun x => x.eventId = r.eventId) = none := by
      rw [List.findIdx?_eq_none_iff]
      intro x hx
      obtain ⟨y,hy,rfl⟩ := List.mem_map.mp hx
      exact decide_eq_false (hnew y.eventId (List.mem_map_of_mem hy) r.eventId (List.mem_singleton_self _))
    rw [hstep,List.map_append,List.map_singleton]
    change mirrorInsert (VectorIndex.openInMemory.append records).rows r.toInMemoryRow = _
    rw [ih hrecords,mirrorInsert,hnone]

/-- A vector of a store is one of those at the start or was written since. -/
theorem mem_vectorRows_of_run {st : Stores} {ops : List StoreOp} {v : InMemoryRow}
    (h : v ∈ (st.run ops).vectorRows) :
    v ∈ st.vectorRows ∨ ∃ r ∈ ops.flatMap StoreOp.records, r.toInMemoryRow = v := by
  induction ops generalizing st with
  | nil => exact Or.inl h
  | cons op ops ih =>
    rw [List.flatMap_cons]
    rcases ih h with hv | ⟨r,hr,hrv⟩
    · cases op with
      | append events => exact Or.inl hv
      | sweep policies nowMs dryRun =>
        exact Or.inl ((sweepPairs_vectorRows policies nowMs dryRun _ _ st).1 hv)
      | appendVectors records =>
        cases hindex : st.vector with
        | none =>
          simp only [Stores.vectorRows,Stores.apply,hindex] at hv
          cases hv
        | some index =>
          have hrows : v ∈ (index.append records).rows := by
            simpa [Stores.vectorRows,Stores.apply,hindex] using hv
          rcases VectorIndex.mem_append.mp hrows with ⟨hold,-⟩ | ⟨r,hfind,hrv⟩
          · exact Or.inl (by simpa [Stores.vectorRows,hindex] using hold)
          · have hr : r ∈ records := List.mem_reverse.mp (List.mem_of_find?_eq_some hfind)
            exact Or.inr ⟨r,List.mem_append_left _ hr,hrv⟩
    · exact Or.inr ⟨r,List.mem_append_right _ hr,hrv⟩

/-- An index that nobody sweeps has what was written. -/
theorem vector_run_of_kept {st : Stores} {ops : List StoreOp}
    (h : ∀ policies nowMs, StoreOp.sweep policies nowMs false ∉ ops) :
    (st.run ops).vector = st.vector.map fun index => index.append (ops.flatMap StoreOp.records) := by
  induction ops generalizing st with
  | nil => exact Option.map_id'.symm
  | cons op ops ih =>
    have hrest : ∀ policies nowMs, StoreOp.sweep policies nowMs false ∉ ops := fun policies nowMs hmem =>
      h policies nowMs (List.mem_cons_of_mem _ hmem)
    refine (ih hrest).trans ?_
    cases op with
    | append events => rfl
    | appendVectors records =>
      rw [Stores.apply,Option.map_map,List.flatMap_cons]
      refine congrArg (Option.map · st.vector) (funext fun index => ?_)
      exact (List.foldl_append ..).symm
    | sweep policies nowMs dryRun =>
      cases dryRun with
      | true =>
        have hsame : (Percept.sweep policies nowMs true st).2 = st := sweepPairs_dry_snd _ _ _
        rw [Stores.apply,hsame]
        rfl
      | false => exact absurd List.mem_cons_self (h policies nowMs)

namespace Node

variable {cfg : NodeConfig} {st : Stores} {n : Node cfg} {p : Event → Bool}

section Search

variable {S : Type}

/-- Each hit is looked up in its turn; what the node does before it stands in the schedule. -/
def lookUp (n : Node cfg) : List (SearchHit S) → List (List NodeAction) → List (SearchHitOut S)
  | [], _ => []
  | hit::hits, schedule =>
    let n := n.run (schedule.headD [])
    let found := (n.writer.store.getById hit.eventId).map fun event => ⟨event,hit.score,hit.truncated⟩
    found.toList ++ n.lookUp hits schedule.tail

/-- While the node rests a search is that of its stores. -/
theorem lookUp_rest (n : Node cfg) (hits : List (SearchHit S)) :
    n.lookUp hits [] = hydrate n.writer.store hits := by
  induction hits with
  | nil => rfl
  | cons hit hits ih =>
    unfold lookUp
    simp only [List.headD_nil,List.tail_nil,run_nil,ih,hydrate,List.filterMap_cons]
    cases n.writer.store.getById hit.eventId <;> rfl

/-- A looked up hit keeps its place, its score and its id. -/
theorem lookUp_sublist (n : Node cfg) (hits : List (SearchHit S)) (schedule : List (List NodeAction)) :
    ((n.lookUp hits schedule).map fun o => (o.event.eventId,o.score)).Sublist
      (hits.map fun hit => (hit.eventId,hit.score)) := by
  induction hits generalizing n schedule with
  | nil => exact .slnil
  | cons hit hits ih =>
    have hrest := ih (n.run (schedule.headD [])) schedule.tail
    unfold lookUp
    rw [List.map_cons]
    cases hget : (n.run (schedule.headD [])).writer.store.getById hit.eventId with
    | none =>
      simp only [hget,Option.map_none,Option.toList_none,List.nil_append]
      exact hrest.cons _
    | some event =>
      simp only [hget,Option.map_some,Option.toList_some,List.singleton_append,List.map_cons,
        ColdStore.eventId_of_getById hget]
      exact hrest.cons_cons _

/-- A looked up hit is of an event that the log had on the way. -/
theorem mem_lookUp {hits : List (SearchHit S)} {schedule : List (List NodeAction)} {o : SearchHitOut S}
    (h : o ∈ n.lookUp hits schedule) : ∃ hit ∈ hits, o.score = hit.score ∧ o.truncated = hit.truncated ∧
      ∃ l l', schedule.flatten = l ++ l' ∧
        (n.run l).writer.store.getById hit.eventId = some o.event := by
  induction hits generalizing n schedule with
  | nil => cases h
  | cons hit hits ih =>
    have hflatten : schedule.flatten = schedule.headD [] ++ schedule.tail.flatten := by
      cases schedule <;> rfl
    have hrest : o ∈ (n.run (schedule.headD [])).lookUp hits schedule.tail →
        ∃ hit' ∈ hit::hits, o.score = hit'.score ∧ o.truncated = hit'.truncated ∧
          ∃ l l', schedule.flatten = l ++ l' ∧
            (n.run l).writer.store.getById hit'.eventId = some o.event := by
      intro ho
      obtain ⟨hit',hhit,hscore,htruncated,l,l',hsplit,hget⟩ := ih ho
      refine ⟨hit',List.mem_cons_of_mem _ hhit,hscore,htruncated,schedule.headD [] ++ l,l',?_,?_⟩
      · rw [hflatten,hsplit,List.append_assoc]
      · rw [run_append]
        exact hget
    unfold lookUp at h
    rcases List.mem_append.mp h with h | h
    · obtain ⟨event,hget,rfl⟩ := Option.map_eq_some_iff.mp (Option.mem_toList.mp h)
      exact ⟨hit,List.mem_cons_self,rfl,rfl,schedule.headD [],schedule.tail.flatten,hflatten,hget⟩
    · exact hrest h

/-- `search_events` of a node with an index; its server has an embedder then. -/
def search [LinearOrder S] (n : Node cfg) (gs : Globset) (cosine : List UInt32 → List UInt32 → S)
    (args : SearchEventsArgs) (schedule : List (List NodeAction)) :
    Except ToolError (List (SearchHitOut S)) :=
  (searchScan gs cosine n.stores.vector (n.stores.vector.map fun _ => cfg.embedder) args).map
    fun hits => n.lookUp hits schedule

end Search

/-- All that holds of the way from the bus to the index. The embedder is offered the events `p`. -/
def Embeds (p : Event → Bool) (n : Node cfg) : Prop := ∃ t tx committed, n.task = some t ∧
  n.ingest.Feeds .embedder p tx ∧ t.Holds cfg.embedder committed tx.received ∧
    n.ops.flatMap StoreOp.records = committed.map (buildRecord cfg.embedder)

theorem Embeds.step (h : n.Embeds p) (a : NodeAction) : (n.step a).Embeds p := by
  obtain ⟨t,tx,committed,htask,htx,hheld,hrecords⟩ := h
  -- an operation that writes no vectors
  have haside : ∀ op : StoreOp, op.records = [] →
      (n.ops ++ [op]).flatMap StoreOp.records = committed.map (buildRecord cfg.embedder) := by
    intro op hop
    rw [List.flatMap_append,List.flatMap_singleton,hop,List.append_nil,hrecords]
  have hwritten : ∀ events : List Event,
      (n.ops ++ [StoreOp.appendVectors (events.map (buildRecord cfg.embedder))]).flatMap StoreOp.records =
        (committed ++ events).map (buildRecord cfg.embedder) := by
    intro events
    rw [List.flatMap_append,List.flatMap_singleton,hrecords,List.map_append]
    rfl
  cases a with
  | ingest a =>
    obtain ⟨tx',htx',hreceived⟩ := htx.step a.others
    refine ⟨t,tx',committed,htask,htx',?_,hrecords⟩
    rw [hreceived fun takes htakes => others_takes (by decide) htakes]
    exact hheld
  | recv commit =>
    unfold Node.step
    cases n.waiting .coldWriter with
    | nil => exact ⟨t,tx,committed,htask,htx,hheld,hrecords⟩
    | cons e rest => exact ⟨t,tx,committed,htask,feeds_taken_ne htx (by decide),hheld,haside _ rfl⟩
  | tick commit => exact ⟨t,tx,committed,htask,htx,hheld,haside _ rfl⟩
  | embedRecv commit =>
    unfold Node.step
    rw [htask,waiting_eq htx]
    cases hqueue : tx.queue with
    | nil => exact ⟨t,tx,committed,htask,htx,hheld,hrecords⟩
    | cons e rest =>
      refine ⟨_,tx.recv,_,rfl,feeds_taken htx,?_,hwritten _⟩
      rw [Channel.received_recv hqueue]
      exact hheld.receive cfg.task.batchSize e commit
  | embedTick commit =>
    unfold Node.step
    rw [htask]
    exact ⟨_,tx,_,rfl,htx,hheld.flushRest commit,hwritten _⟩
  | sweep policies nowMs dryRun =>
    have hvector : (n.stores.apply (.sweep policies nowMs dryRun)).vector.isSome = n.stores.vector.isSome :=
      (sweepPairs_vectorRows policies nowMs dryRun _ _ n.stores).2
    obtain ⟨index,hindex⟩ := Option.isSome_iff_exists.mp (hvector.trans (by rw [stores,htask]; rfl))
    refine ⟨{ t with index },tx,committed,?_,htx,?_,haside _ rfl⟩
    · change n.task.bind _ = _
      rw [htask,Option.bind_some,hindex,Option.map_some]
    · exact ⟨hheld.ordered,hheld.whole,hheld.counted,hheld.truncated,hheld.pending⟩

theorem Embeds.run (h : n.Embeds p) (l : List NodeAction) : (n.run l).Embeds p := by
  induction l generalizing n with
  | nil => exact h
  | cons a l ih => exact ih (h.step a)

/-- Every event that the embedder was offered is embedded, in the buffer, waiting or dropped by a counter,
if no commit failed. -/
theorem Embeds.accounted (h : n.Embeds p) : ∃ t, n.task = some t ∧
    let seen := t.metrics.eventsEmbedded+t.metrics.pendingBuffer+(n.waiting .embedder).length+
      n.ingest.normalizer.metrics.consumerDrops "embedder"
    seen ≤ (n.ingest.pushed.filter p).length ∧
      (t.metrics.commitErrors = 0 → seen = (n.ingest.pushed.filter p).length) := by
  obtain ⟨t,tx,committed,htask,htx,hheld,-⟩ := h
  have hcounted : tx.sent.length+n.ingest.normalizer.metrics.consumerDrops "embedder" = _ := htx.counted
  rw [Channel.sent,List.length_append] at hcounted
  have hlength := hheld.ordered.length_le
  rw [List.length_append] at hlength
  refine ⟨t,htask,?_,fun herrors => ?_⟩
  · rw [hheld.counted,hheld.pending,waiting_eq htx]
    omega
  · have hwhole := congrArg List.length (hheld.whole herrors)
    rw [List.length_append] at hwhole
    rw [hheld.counted,hheld.pending,waiting_eq htx]
    omega

/-- A vector in the index of a node that started empty is of an event that the embedder was offered. -/
theorem Embeds.vector_made (h : n.Embeds p) (hinv : Inv st n) (hempty : st.vectorRows = []) {v : InMemoryRow}
    (hv : v ∈ n.stores.vectorRows) :
    ∃ e ∈ n.ingest.pushed, p e = true ∧ vectorOf cfg.embedder e = v := by
  obtain ⟨t,tx,committed,-,htx,hheld,hrecords⟩ := h
  rw [hinv.stores] at hv
  rcases mem_vectorRows_of_run hv with hstart | ⟨r,hr,hrv⟩
  · rw [hempty] at hstart
    cases hstart
  · rw [hrecords] at hr
    obtain ⟨e,he,rfl⟩ := List.mem_map.mp hr
    have hreceived : e ∈ tx.received := hheld.ordered.subset (List.mem_append_left _ he)
    have hoffered : e ∈ n.ingest.pushed.filter p :=
      htx.ordered.subset (List.mem_append_left tx.queue hreceived)
    obtain ⟨hpushed,hp⟩ := List.mem_filter.mp hoffered
    exact ⟨e,hpushed,hp,hrv⟩

/-- An event that a look-up finds in a node that started empty is one that the normalizer made. -/
theorem Inv.found_made (h : Inv st n) (hempty : st.cold = .openInMemory) {id : Ulid} {e : Event}
    (hget : n.writer.store.getById id = some e) : e ∈ n.ingest.pushed := by
  obtain ⟨r,hlookup,rfl⟩ := Option.map_eq_some_iff.mp hget
  obtain ⟨hrow,-⟩ := KeyTable.lookup_eq_some_iff.mp hlookup
  obtain ⟨m,hm,rfl⟩ := h.row_made hempty hrow
  have hevent : rowToEvent m.toRow.toStoredRow = m := toEvent_of_pushed h.streams hm
  rw [hevent]
  exact hm

/-- Of the way to the index too nothing is left, and nothing was lost on it. -/
structure Embedded (n : Node cfg) : Prop where
  waiting : n.waiting .embedder = []
  drops : n.ingest.normalizer.metrics.consumerDrops "embedder" = 0
  errors : ∀ t, n.task = some t → t.metrics.commitErrors = 0
  pending : ∀ t, n.task = some t → t.metrics.pendingBuffer = 0

/-- What was written to the index is then all that the embedder was offered. -/
theorem Embeds.records_eq (h : n.Embeds p) (hembedded : n.Embedded) :
    n.ops.flatMap StoreOp.records = (n.ingest.pushed.filter p).map (buildRecord cfg.embedder) := by
  obtain ⟨t,tx,committed,htask,htx,hheld,hrecords⟩ := h
  have hqueue : tx.queue = [] := (waiting_eq htx).symm.trans hembedded.waiting
  have hsent := htx.sent_eq hembedded.drops
  rw [Channel.sent,hqueue,List.append_nil] at hsent
  rw [hrecords,hheld.committed_eq (hembedded.errors t htask) (hembedded.pending t htask),hsent]

/-- The accepted events that a request is for. -/
def wanted (n : Node cfg) (p : Event → Bool) (args : SearchEventsArgs)
    (sourceGlobs kindGlobs : Option (String → Bool)) : List Event :=
  n.ingest.pushed.filter fun e =>
    VectorIndex.selects args.filter sourceGlobs kindGlobs (vectorOf cfg.embedder e) && p e

/-- The candidates of a search are then the wanted events. -/
theorem Embeds.candidates_eq (h : n.Embeds p) (hinv : Inv st n) (hvector : st.vector = some .openInMemory)
    (hembedded : n.Embedded) (hops : ∀ policies nowMs, StoreOp.sweep policies nowMs false ∉ n.ops)
    (hids : (n.ingest.pushed.map fun e => e.eventId).Nodup)
    {S : Type} (cosine : List UInt32 → List UInt32 → S) (args : SearchEventsArgs)
    (sourceGlobs kindGlobs : Option (String → Bool)) : ∃ index, n.stores.vector = some index ∧
      candidates cosine index cfg.embedder args sourceGlobs kindGlobs =
        (n.wanted p args sourceGlobs kindGlobs).map fun e =>
          VectorIndex.hit cosine (cfg.embedder.embed args.query) (vectorOf cfg.embedder e) := by
  have hrecords := h.records_eq hembedded
  refine ⟨VectorIndex.openInMemory.append (n.ops.flatMap StoreOp.records),?_,?_⟩
  · rw [hinv.stores,vector_run_of_kept hops,hvector]
    rfl
  · have hnodup : ((n.ops.flatMap StoreOp.records).map fun r => r.eventId).Nodup := by
      rw [hrecords,List.map_map]
      exact hids.sublist (List.filter_sublist.map _)
    rw [candidates,VectorIndex.rows_append_openInMemory hnodup,hrecords,List.map_map,List.filter_map,
      List.filter_filter,List.map_map]
    rfl

/-- The log of a node at rest has each accepted event. -/
theorem Inv.getById_made (h : Inv st n) (hempty : st.cold = .openInMemory) (hsettled : n.Settled)
    (hops : ∀ policies nowMs, StoreOp.sweep policies nowMs false ∉ n.ops)
    (hids : (n.ingest.pushed.map fun e => e.eventId).Nodup) {e : Event} (he : e ∈ n.ingest.pushed) :
    n.writer.store.getById e.eventId = some e := by
  have hcold : n.writer.store = ColdStore.openInMemory.append n.ingest.pushed := h.cold_eq hempty hsettled hops
  have hfind : n.ingest.pushed.find? (fun x => x.eventId = e.eventId) = some e := by
    obtain ⟨m,hm⟩ := Option.isSome_iff_exists.mp (List.find?_isSome (p := fun x : Event =>
      decide (x.eventId = e.eventId)).mpr ⟨e,he,decide_eq_true rfl⟩)
    have hid : m.eventId = e.eventId := by simpa using List.find?_some hm
    rw [hm,List.inj_on_of_nodup_map hids (List.mem_of_find?_eq_some hm) he hid]
  rw [hcold]
  refine Option.map_eq_some_iff.mpr ⟨e.toRow,?_,toEvent_of_pushed h.streams he⟩
  exact KeyTable.lookup_eq_some_iff.mpr ⟨mem_log.mpr ⟨e,hfind,rfl⟩,rfl⟩

section Search

variable {S : Type} [LinearOrder S] {gs : Globset} {cosine : List UInt32 → List UInt32 → S}
  {args : SearchEventsArgs} {schedule : List (List NodeAction)} {out : List (SearchHitOut S)}

/-- A search has an index, and it looks up the best of its candidates. -/
theorem search_ok (h : n.search gs cosine args schedule = .ok out) :
    ∃ index sourceGlobs kindGlobs, n.stores.vector = some index ∧ Answered gs args sourceGlobs kindGlobs ∧
      out = n.lookUp (ranked args.topK (candidates cosine index cfg.embedder args sourceGlobs kindGlobs))
        schedule := by
  unfold search at h
  cases hindex : n.stores.vector with
  | none =>
    rw [hindex] at h
    cases h
  | some index =>
    rw [hindex,Option.map_some] at h
    cases hscan : searchScan gs cosine (some index) (some cfg.embedder) args with
    | error e =>
      rw [hscan] at h
      cases h
    | ok hits =>
      rw [hscan] at h
      obtain ⟨sourceGlobs,kindGlobs,hans,rfl⟩ := searchScan_ok hscan
      exact ⟨index,sourceGlobs,kindGlobs,rfl,hans,(Except.ok.inj h).symm⟩

/-- The score that a search gives an event. -/
def scoreOf (cosine : List UInt32 → List UInt32 → S) (cfg : NodeConfig) (args : SearchEventsArgs)
    (e : Event) : S :=
  cosine (cfg.embedder.embed args.query) (vectorOf cfg.embedder e).vector

/-- Whatever the node does during a search, its answer is in order and has accepted events only; the score
is that of an accepted event with the same id. -/
theorem Embeds.search_live (h : n.Embeds p) (hinv : Inv st n) (hempty : st.cold = .openInMemory)
    (hvectors : st.vectorRows = []) (hsearch : n.search gs cosine args schedule = .ok out) :
    out.length ≤ args.topK ∧ (out.map fun o => o.event.eventId).Nodup ∧
      out.Pairwise (fun a b => b.score ≤ a.score) ∧
      ∀ o ∈ out, o.event ∈ (n.run schedule.flatten).ingest.pushed ∧
        ∃ e ∈ n.ingest.pushed, e.eventId = o.event.eventId ∧ p e = true ∧ Requested gs args e ∧
          o.score = scoreOf cosine cfg args e ∧ o.truncated = (vectorOf cfg.embedder e).truncated := by
  obtain ⟨index,sourceGlobs,kindGlobs,hindex,hans,rfl⟩ := search_ok hsearch
  have hsub := n.lookUp_sublist (ranked args.topK (candidates cosine index cfg.embedder args sourceGlobs
    kindGlobs)) schedule
  refine ⟨?_,?_,?_,fun o ho => ?_⟩
  · have hlength := hsub.length_le
    rw [List.length_map,List.length_map,length_ranked args.topK_pos] at hlength
    exact hlength.trans (Nat.min_le_left _ _)
  · have hids := hsub.map Prod.fst
    rw [List.map_map,List.map_map] at hids
    exact (nodup_ranked args.topK_pos nodup_candidates).sublist hids
  · have hsorted : ((ranked args.topK (candidates cosine index cfg.embedder args sourceGlobs
        kindGlobs)).map SearchHit.score).Pairwise fun a b => b ≤ a :=
      List.pairwise_map.mpr (ranked_sorted _)
    have hscores := hsub.map Prod.snd
    rw [List.map_map,List.map_map] at hscores
    exact List.pairwise_map.mp (hsorted.sublist hscores)
  · obtain ⟨hit,hhit,hscore,htruncated,k,k',hsplit,hget⟩ := mem_lookUp ho
    obtain ⟨v,hv,rfl⟩ := List.mem_map.mp (mem_ranked args.topK_pos hhit)
    obtain ⟨hrow,hselects⟩ := List.mem_filter.mp hv
    obtain ⟨e,he,hp,rfl⟩ := h.vector_made hinv hvectors (by
      rw [Stores.vectorRows,hindex]
      exact hrow)
    refine ⟨?_,e,he,(ColdStore.eventId_of_getById hget).symm,hp,requested_of_selects hans hselects,hscore,
      htruncated⟩
    rw [hsplit,run_append]
    exact pushed_run _ k' ((hinv.run k).found_made hempty hget)

variable (cosine) in
/-- The answer of a node at rest is the best of the accepted events that the request is for. -/
theorem Embeds.search_best (h : n.Embeds p) (hinv : Inv st n) (hempty : st.cold = .openInMemory)
    (hvector : st.vector = some .openInMemory) (hsettled : n.Settled) (hembedded : n.Embedded)
    (hops : ∀ policies nowMs, StoreOp.sweep policies nowMs false ∉ n.ops)
    (hids : (n.ingest.pushed.map fun e => e.eventId).Nodup) {sourceGlobs kindGlobs : Option (String → Bool)}
    (hans : Answered gs args sourceGlobs kindGlobs) : ∃ out, n.search gs cosine args [] = .ok out ∧
      out.length = min args.topK (n.wanted p args sourceGlobs kindGlobs).length ∧
      (∀ o ∈ out, o.event ∈ n.wanted p args sourceGlobs kindGlobs) ∧
      ∀ e ∈ n.wanted p args sourceGlobs kindGlobs, (∀ o ∈ out, o.event ≠ e) →
        ∀ o ∈ out, scoreOf cosine cfg args e ≤ o.score := by
  obtain ⟨index,hindex,hcandidates⟩ := h.candidates_eq hinv hvector hembedded hops hids cosine args
    sourceGlobs kindGlobs
  have hget : ∀ e ∈ n.wanted p args sourceGlobs kindGlobs, n.writer.store.getById e.eventId = some e :=
    fun e he => hinv.getById_made hempty hsettled hops hids (List.mem_of_mem_filter he)
  have hnd := @nodup_candidates S cosine index cfg.embedder args sourceGlobs kindGlobs
  -- no vector is without its event
  have hlive : ∀ hit ∈ candidates cosine index cfg.embedder args sourceGlobs kindGlobs,
      n.writer.store.live hit = true := by
    intro hit hhit
    rw [hcandidates] at hhit
    obtain ⟨e,he,rfl⟩ := List.mem_map.mp hhit
    exact congrArg Option.isSome (hget e he)
  obtain ⟨rest,hselect⟩ := TopK.select_best SearchHit.score args.topK_pos
    (candidates cosine index cfg.embedder args sourceGlobs kindGlobs)
  have hbest : BestLive n.writer.store args.topK (candidates cosine index cfg.embedder args sourceGlobs
      kindGlobs) (hydrate n.writer.store (ranked args.topK (candidates cosine index cfg.embedder args
        sourceGlobs kindGlobs))) := by
    refine (bestLive_iff args.topK_pos hnd).mpr ?_
    rw [List.countP_eq_length.mpr hlive,List.countP_eq_length.mpr fun hit hhit => hlive hit
      (hselect.perm.subset (List.mem_append_left rest hhit)),hselect.length]
  have hanswer : n.search gs cosine args [] = .ok (hydrate n.writer.store (ranked args.topK
      (candidates cosine index cfg.embedder args sourceGlobs kindGlobs))) := by
    have hscan := @searchEvents_answered S _ gs cosine index cfg.embedder n.writer.store args sourceGlobs
      kindGlobs hans
    rw [searchEvents_eq_scan] at hscan
    rw [search,hindex,Option.map_some]
    simpa only [lookUp_rest] using hscan
  refine ⟨_,hanswer,?_,fun o ho => ?_,fun e he hleft o ho => ?_⟩
  · rw [hbest.count,List.countP_eq_length.mpr hlive,hcandidates,List.length_map]
  · obtain ⟨hit,hhit,hfound,-⟩ := hbest.shown o ho
    rw [hcandidates] at hhit
    obtain ⟨e,he,rfl⟩ := List.mem_map.mp hhit
    obtain rfl := Option.some.inj ((hget e he).symm.trans hfound)
    exact he
  · have hhit : VectorIndex.hit cosine (cfg.embedder.embed args.query) (vectorOf cfg.embedder e) ∈
        candidates cosine index cfg.embedder args sourceGlobs kindGlobs := by
      rw [hcandidates]
      exact List.mem_map_of_mem he
    refine hbest.best _ hhit (hlive _ hhit) (fun o' ho' hid => hleft o' ho' ?_) o ho
    obtain ⟨hit,-,hfound,-⟩ := hbest.shown o' ho'
    have hevent : n.writer.store.getById o'.event.eventId = some o'.event := by
      rw [ColdStore.eventId_of_getById hfound]
      exact hfound
    exact Option.some.inj (hevent.symm.trans ((congrArg _ hid).trans (hget e he)))

end Search

/-- The events that go to the embedder. -/
def offers (selector : EmbedSelector) (e : Event) : Bool := selector.shouldEmbed e.sourceId e.kind

theorem embeds_fresh (schemas : SchemaIndex) (capacity embedCapacity : ℕ) (selector : EmbedSelector)
    (forwardTx : Option (Channel Event)) (brokers : List MqttSubscriber) :
    (fresh cfg schemas capacity (some ⟨.new embedCapacity,selector⟩) forwardTx brokers
      (some .openInMemory)).Embeds (offers selector) :=
  ⟨_,_,[],rfl,⟨rfl,rfl,rfl,List.Sublist.refl _,rfl⟩,.new _,rfl⟩

/-- Everything is embedded, two events at a time. -/
def embeddingNode : NodeConfig := { smallNode with embedder := lengthEmbedder,task := { batchSize := 2 } }

def captionBody (semantic : Json) : Json :=
  .object [("source_id",.string "cam"),("kind",.string "caption"),("ts_ms_utc",.number (.posInt 5)),
    ("semantic",semantic)]

/-- Three captions; the batches of both tasks fill up, and a tick flushes the rest. -/
def threeCaptions : List NodeAction :=
  [.ingest (.http (some "Bearer t") (.ok (.array [captionBody (.bool true),captionBody (.bool false)])) 0 none),
    .ingest (.send 0),.ingest (.send 0),.ingest (.normalize 1 0 6 0),.recv (.ok ()),.embedRecv (.ok ()),
    .ingest (.http (some "Bearer t") (.ok (captionBody .null)) 0 none),.ingest (.send 1),
    .ingest (.normalize 2 0 6 0),.embedRecv (.ok ()),.recv (.ok ()),.ingest (.normalize 3 0 8 0),.recv (.ok ()),
    .embedRecv (.ok ()),.embedTick (.ok ()),.tick (.ok ())]

def oneCaption : SearchEventsArgs := { query := "q",limit := some 1 }

end Node

end Percept
