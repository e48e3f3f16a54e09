import Percept.Node

/-! What the clients of a running node read: events that were accepted, each once, and all of them when
nothing was lost on the way. -/
namespace Percept

namespace Node

open OrderBy

variable {cfg : NodeConfig} {codec : CursorCodec} {args : GetWindowArgs} {st : Stores} {n : Node cfg}

theorem pushed_ingest (s : IngestSystem cfg.ingest) (a : IngestAction) : s.pushed ⊆ (s.step a).pushed := by
  cases s.step_effect a with
  | quiet frame _ _ | accept _ frame _ _ _ | stop _ _ frame _ _ _ | enqueue _ _ _ frame _ _ _ _
  | publish _ _ _ _ _ _ frame _ _ _ _ _ _ =>
    rw [frame.pushed]
    exact List.Subset.refl _
  | normalize x rest arrival queue envelope received pushed normalizer batches sent =>
    rw [pushed]
    exact List.subset_append_left _ _

theorem pushed_step (n : Node cfg) (a : NodeAction) : n.ingest.pushed ⊆ (n.step a).ingest.pushed := by
  cases a with
  | ingest a => exact pushed_ingest n.ingest a.others
  | recv commit =>
    unfold Node.step
    cases n.waiting .coldWriter with
    | nil => exact List.Subset.refl _
    | cons e rest => exact pushed_ingest n.ingest _
  | embedRecv commit =>
    unfold Node.step
    cases n.task with
    | none => exact List.Subset.refl _
    | some t =>
      cases n.waiting .embedder with
      | nil => exact List.Subset.refl _
      | cons e rest => exact pushed_ingest n.ingest _
  | embedTick commit =>
    unfold Node.step
    cases n.task <;> exact List.Subset.refl _
  | tick commit | sweep policies nowMs dryRun => exact List.Subset.refl _

theorem pushed_run (n : Node cfg) (l : List NodeAction) : n.ingest.pushed ⊆ (n.run l).ingest.pushed := by
  induction l generalizing n with
  | nil => exact List.Subset.refl _
  | cons a l ih => exact List.Subset.trans (n.pushed_step a) (ih (n.step a))

/-- The stores that a client reads are those of the node on its way. -/
theorem follow_contents {schedule : List (List NodeAction)} {cursor : Option String} {walk : Followed}
    (h : n.follow codec args schedule cursor = .ok walk) : ∀ s ∈ walk.contents,
      ∃ l l', schedule.flatten = l ++ l' ∧ s = (n.run l).writer.store := by
  induction schedule generalizing n cursor walk with
  | nil =>
    unfold Node.follow at h
    split at h
    · cases h
    · obtain rfl := Except.ok.inj h
      intro s hs
      exact ⟨[],[],rfl,List.mem_singleton.mp hs⟩
  | cons l schedule ih =>
    unfold Node.follow at h
    split at h
    · cases h
    · obtain rfl := Except.ok.inj h
      intro s hs
      exact ⟨[],_,rfl,List.mem_singleton.mp hs⟩
    · split at h
      · cases h
      next rest hrest =>
        obtain rfl := Except.ok.inj h
        intro s hs
        rcases List.mem_cons.mp hs with rfl | hs
        · exact ⟨[],_,rfl,rfl⟩
        · obtain ⟨k,k',hsplit,hstore⟩ := ih hrest s hs
          refine ⟨l ++ k,k',?_,?_⟩
          · rw [List.flatten_cons,hsplit,List.append_assoc]
          · rw [run_append]
            exact hstore

/-- A row in the store of a node that started empty is of an event that the normalizer made. -/
theorem Inv.row_made (h : Inv st n) (hempty : st.cold = .openInMemory) {r : EventRow}
    (hr : r ∈ n.writer.store.events.rows) : ∃ e ∈ n.ingest.pushed, r = e.toRow := by
  have hrow : r ∈ (st.run n.ops).cold.events.rows := h.stores ▸ hr
  have harrived := mem_arrived_of_run hrow
  rw [arrived,hempty] at harrived
  obtain ⟨e,he,rfl⟩ := List.mem_map.mp harrived
  exact ⟨e,h.written_subset he,rfl⟩

theorem made_of_pushed (h : n.ingest.Streams) {e : Event} (he : e ∈ n.ingest.pushed) :
    ∃ x ∈ n.ingest.tx.received, Keeps x e := by
  obtain ⟨i,hi,rfl⟩ := List.getElem_of_mem he
  have hlength := h.keeps.length_eq
  exact ⟨n.ingest.tx.received[i],List.getElem_mem _,h.keeps.get (by omega) hi⟩

theorem toEvent_of_pushed (h : n.ingest.Streams) {e : Event} (he : e ∈ n.ingest.pushed) :
    e.toRow.toEvent = e := by
  obtain ⟨x,-,hkeeps⟩ := made_of_pushed h he
  exact ColdStore.rowToEvent_toStored hkeeps.ingestTsMsUtc

/-- Whatever the node does between the calls, the pages have accepted events only, in the order of
their stamps. -/
theorem Inv.live (h : Inv st n) (hempty : st.cold = .openInMemory) (hcodec : codec.RoundTrips)
    (hrange : args.startMs < args.endMs) (hlimit : 0 < args.pageLimit.toNat)
    (schedule : List (List NodeAction)) :
    ∃ walk, n.follow codec args schedule none = .ok walk ∧
      walk.pages.flatten.Pairwise (fun a b => a.stamp < b.stamp) ∧
      ∀ e ∈ walk.pages.flatten, args.filter.selects e.toStored = true ∧
        e ∈ (n.run schedule.flatten).ingest.pushed := by
  obtain ⟨contents,pages,cursor,hfollow,hwalk,-,-⟩ :=
    follow_walk hcodec hrange hlimit (n.opsBetween schedule) none n.stores
  have hnode := (follow_eq schedule none n).trans hfollow
  have hnd : ∀ rows ∈ contents.map args.matching, (rows.map EventRow.stamp).Nodup := by
    intro rows hrows
    obtain ⟨s,-,rfl⟩ := List.mem_map.mp hrows
    exact args.nodup_matching s
  have hflat : (pages.map (List.map EventRow.toEvent)).flatten = pages.flatten.map EventRow.toEvent :=
    List.map_flatten.symm
  refine ⟨_,hnode,?_,?_⟩ <;> simp only [hflat]
  · exact List.pairwise_map.mpr (hwalk.ascending hlimit hnd)
  · intro e he
    obtain ⟨r,hr,rfl⟩ := List.mem_map.mp he
    have hstored := hwalk.forall_mem (p := fun r => args.filter.selects r.toStoredRow = true ∧
      ∃ s ∈ contents, r ∈ s.events.rows) (fun rows hrows r hr => by
        obtain ⟨s,hs,rfl⟩ := List.mem_map.mp hrows
        obtain ⟨hrow,hselects⟩ := List.mem_filter.mp hr
        exact ⟨hselects,s,hs,hrow⟩) r hr
    obtain ⟨hselects,s,hs,hrow⟩ := hstored
    obtain ⟨l,l',hsplit,rfl⟩ := follow_contents hnode s hs
    have hinv := h.run l
    obtain ⟨m,hm,rfl⟩ := hinv.row_made hempty hrow
    rw [toEvent_of_pushed hinv.streams hm,hsplit,run_append]
    exact ⟨hselects,pushed_run _ l' hm⟩

/-- Nobody sweeps for real. -/
theorem sweep_mem_opsAlong {l : List NodeAction} {policies : List RetentionPolicy} {nowMs : Int64}
    {dryRun : Bool} (h : .sweep policies nowMs dryRun ∈ n.opsAlong l) : .sweep policies nowMs dryRun ∈ l := by
  induction l generalizing n with
  | nil => cases h
  | cons a l ih =>
    rcases List.mem_append.mp h with ha | hl
    · cases a with
      | ingest a => cases ha
      | recv commit =>
        unfold opsOf at ha
        cases hwaiting : n.waiting .coldWriter with
        | nil =>
          rw [hwaiting] at ha
          cases ha
        | cons e rest =>
          rw [hwaiting] at ha
          cases List.mem_singleton.mp ha
      | embedRecv commit =>
        unfold opsOf at ha
        cases htask : n.task with
        | none =>
          rw [htask] at ha
          cases ha
        | some t =>
          cases hwaiting : n.waiting .embedder with
          | nil =>
            simp only [htask,hwaiting] at ha
            cases ha
          | cons e rest =>
            simp only [htask,hwaiting] at ha
            cases List.mem_singleton.mp ha
      | embedTick commit =>
        unfold opsOf at ha
        cases htask : n.task with
        | none =>
          rw [htask] at ha
          cases ha
        | some t =>
          rw [htask] at ha
          cases List.mem_singleton.mp ha
      | tick commit => cases List.mem_singleton.mp ha
      | sweep policies' nowMs' dryRun' =>
        cases List.mem_singleton.mp ha
        exact List.mem_cons_self
    · exact List.mem_cons_of_mem _ (ih hl)

/-- The log as it is when all was committed and nothing swept. -/
theorem Inv.log (h : Inv st n) (hempty : st.cold = .openInMemory) (hsettled : n.Settled) :
    unswept st.cold n.ops = ColdStore.openInMemory.append n.ingest.pushed := by
  rw [hempty]
  refine @ColdStore.appendAll_openInMemory_congr [n.ingest.pushed] _ ?_
  rw [List.flatten_singleton,← h.written hsettled,List.flatMap]

theorem Inv.cold_eq (h : Inv st n) (hempty : st.cold = .openInMemory) (hsettled : n.Settled)
    (hops : ∀ policies nowMs, StoreOp.sweep policies nowMs false ∉ n.ops) :
    n.stores.cold = ColdStore.openInMemory.append n.ingest.pushed := by
  rw [h.stores,cold_run_of_kept hops,h.log hempty hsettled]

theorem opsBetween_replicate (n : Node cfg) (calls : ℕ) :
    n.opsBetween (List.replicate calls []) = List.replicate calls [] := by
  induction calls with
  | zero => rfl
  | succ calls ih => exact congrArg (List.cons []) ih

/-- A log has the first of the events under each id. -/
theorem mem_log {events : List Event} {r : EventRow} :
    r ∈ (ColdStore.openInMemory.append events).events.rows ↔
      ∃ m, events.find? (fun x => x.eventId = r.eventId) = some m ∧ m.toRow = r := by
  have hmem := @ColdStore.mem_appendAll_openInMemory [events] r
  rwa [List.flatten_singleton] at hmem

/-- The rows of the log that a request selects are those of the first events under their ids. -/
theorem Inv.mem_matching (h : Inv st n) {e : Event} :
    (∃ r ∈ args.matching (ColdStore.openInMemory.append n.ingest.pushed), r.toEvent = e) ↔
      args.filter.selects e.toStored = true ∧
        n.ingest.pushed.find? (fun x => x.eventId = e.eventId) = some e := by
  constructor
  · rintro ⟨r,hr,rfl⟩
    obtain ⟨hlog,hselects⟩ := List.mem_filter.mp hr
    obtain ⟨m,hm,rfl⟩ := mem_log.mp hlog
    rw [toEvent_of_pushed h.streams (List.mem_of_find?_eq_some hm)]
    exact ⟨hselects,hm⟩
  · rintro ⟨hselects,he⟩
    exact ⟨e.toRow,List.mem_filter.mpr ⟨mem_log.mpr ⟨e,he,rfl⟩,hselects⟩,
      toEvent_of_pushed h.streams (List.mem_of_find?_eq_some he)⟩

theorem length_append_openInMemory (events : List Event) :
    (ColdStore.openInMemory.append events).events.rows.length ≤ events.length := by
  have hsub := (KeyTable.insertAll_sublist (KeyTable.empty : KeyTable fun r : EventRow => r.eventId)
    (events.map Event.toRow)).length_le
  rwa [KeyTable.rows_empty,List.nil_append,List.length_map] at hsub

/-- A client that pages through a node at rest reads the accepted events that its filter selects. -/
theorem Inv.settled_reads (h : Inv st n) (hempty : st.cold = .openInMemory) (hcodec : codec.RoundTrips)
    (hrange : args.startMs < args.endMs) (hlimit : 0 < args.pageLimit.toNat) (hsettled : n.Settled)
    (hops : ∀ policies nowMs, StoreOp.sweep policies nowMs false ∉ n.ops) {calls : ℕ}
    (hcalls : n.ingest.pushed.length/args.pageLimit.toNat ≤ calls) :
    ∃ walk, n.follow codec args (List.replicate calls []) none = .ok walk ∧ walk.cursor = none ∧
      ∀ e, e ∈ walk.pages.flatten ↔ args.filter.selects e.toStored = true ∧
        n.ingest.pushed.find? (fun x => x.eventId = e.eventId) = some e := by
  have hcold := h.cold_eq hempty hsettled hops
  obtain ⟨contents,pages,cursor,hfollow,hwalk,hlength,hquiet⟩ :=
    follow_walk hcodec hrange hlimit (n.opsBetween (List.replicate calls [])) none n.stores
  rw [opsBetween_replicate] at hlength hquiet
  have hsame : ∀ rows ∈ contents.map args.matching, rows = args.matching n.stores.cold := by
    intro rows hrows
    obtain ⟨s,hs,rfl⟩ := List.mem_map.mp hrows
    rw [hquiet (fun ops hops => List.eq_of_mem_replicate hops) s hs]
  have hnd := args.nodup_matching n.stores.cold
  have hdone : cursor = none := by
    by_contra hopen
    have hrows : (args.matching n.stores.cold).length ≤ n.ingest.pushed.length := by
      rw [hcold]
      exact (List.length_filter_le ..).trans (length_append_openInMemory _)
    have hlong := (Nat.div_le_div_right (c := args.pageLimit.toNat) hrows).trans hcalls
    have hcount := hlength hopen
    rw [List.length_replicate] at hcount
    have hlast := hwalk.done_of_length hnd hsame hlimit (by omega)
    exact hopen (Option.isNone_iff_eq_none.mp hlast)
  have hflat := hwalk.flatten_eq hnd hsame hlimit (by simp [hdone])
  rw [Option.map_none,Keyset.filter_after_none] at hflat
  refine ⟨_,(follow_eq _ none n).trans hfollow,hdone,fun e => ?_⟩
  rw [← List.map_flatten,hflat,List.mem_map,← h.mem_matching,hcold]
  simp only [mem_orderBy]

/-- The events of a request that was let in and sent to its end were all made. -/
theorem made_of_batch (h : n.ingest.Streams) (hqueue : n.ingest.tx.queue = []) {i : ℕ} {b : Batch cfg.ingest}
    (hb : n.ingest.batches[i]? = some b) (hall : b.sent = b.events.length) {e : IngestEvent}
    (he : e ∈ b.events) : ∃ m ∈ n.ingest.pushed, Keeps ⟨some i,b.scope.envelope e⟩ m := by
  have hbatch := h.ordered.batch i b hb
  rw [hall,List.take_length] at hbatch
  have henvelope : b.scope.envelope e ∈ IngestSystem.fromBatch i n.ingest.tx.sent :=
    hbatch ▸ List.mem_map_of_mem he
  obtain ⟨x,hx,hxe⟩ := List.mem_map.mp henvelope
  obtain ⟨hsent,hxi⟩ := List.mem_filter.mp hx
  obtain ⟨k,hk,rfl⟩ := List.getElem_of_mem hsent
  have hkeeps := h.keeps_sent hqueue
  have hlength := hkeeps.length_eq
  refine ⟨n.ingest.pushed[k],List.getElem_mem _,?_⟩
  have hget := hkeeps.get hk (by omega)
  have heq : n.ingest.tx.sent[k] = ⟨some i,b.scope.envelope e⟩ := by
    cases hx : n.ingest.tx.sent[k] with
    | mk batch envelope =>
      rw [hx] at hxe hxi
      simp only [decide_eq_true_eq] at hxi
      rw [← hxe,hxi]
  exact heq ▸ hget

/-- A fresh node with its consumers. -/
def fresh (cfg : NodeConfig) (schemas : SchemaIndex) (capacity : ℕ) (embedSink : Option EmbedSink)
    (forwardTx : Option (Channel Event)) (brokers : List MqttSubscriber) (vector : Option VectorIndex) :
    Node cfg :=
  spawn (.spawn (.new schemas (some (.new capacity)) embedSink forwardTx) brokers) ⟨.openInMemory,vector⟩

theorem inv_fresh (schemas : SchemaIndex) (capacity : ℕ) (embedSink : Option EmbedSink)
    (forwardTx : Option (Channel Event)) (brokers : List MqttSubscriber) (vector : Option VectorIndex) :
    Inv ⟨.openInMemory,vector⟩ (fresh cfg schemas capacity embedSink forwardTx brokers vector) :=
  .spawn (.spawn schemas capacity embedSink forwardTx brokers) ⟨rfl,rfl,rfl,List.Sublist.refl _,rfl⟩ rfl

theorem ops_run (n : Node cfg) (l : List NodeAction) : (n.run l).ops = n.ops ++ n.opsAlong l := (n.run_wrote l).1

/-- From the request to the reader. In every run of producers, normalizer, cold writer, embedder and
retention task each accepted event is accounted for; a client that pages meanwhile reads accepted events
only, none of them twice; and once nothing is on its way and nothing was lost or swept, it reads exactly
the first accepted event under each id that its filter selects, those of every request that was answered
with 200 among them. -/
theorem accepted_read_back (cfg : NodeConfig) (schemas : SchemaIndex) (capacity : ℕ)
    (embedSink : Option EmbedSink) (forwardTx : Option (Channel Event)) (brokers : List MqttSubscriber)
    (vector : Option VectorIndex) (l : List NodeAction) {codec : CursorCodec} (hcodec : codec.RoundTrips)
    {args : GetWindowArgs} (hrange : args.startMs < args.endMs) (hlimit : ∀ k, args.limit = some k → 1 ≤ k) :
    let n := (fresh cfg schemas capacity embedSink forwardTx brokers vector).run l
    n.ingest.pushed.length = n.writer.metrics.eventsCommitted+n.writer.metrics.eventsDropped+
      n.writer.metrics.pendingBuffer+(n.waiting .coldWriter).length+
        n.ingest.normalizer.metrics.consumerDrops "cold_writer" ∧
    (∀ schedule, ∃ walk, n.follow codec args schedule none = .ok walk ∧
      walk.pages.flatten.Pairwise (fun a b => a.stamp < b.stamp) ∧
      ∀ e ∈ walk.pages.flatten, args.filter.selects e.toStored = true ∧
        ∃ x ∈ (n.run schedule.flatten).ingest.tx.received, Keeps x e) ∧
    (n.Settled → (∀ policies nowMs, .sweep policies nowMs false ∉ l) →
      (∀ calls, n.ingest.pushed.length/args.pageLimit.toNat ≤ calls →
        ∃ walk, n.follow codec args (List.replicate calls []) none = .ok walk ∧ walk.cursor = none ∧
          ∀ e, e ∈ walk.pages.flatten ↔ args.filter.selects e.toStored = true ∧
            n.ingest.pushed.find? (fun x => x.eventId = e.eventId) = some e) ∧
      List.Forall₂ Keeps n.ingest.tx.sent n.ingest.pushed ∧
      ∀ (i : ℕ) (b : Batch cfg.ingest), n.ingest.batches[i]? = some b → b.sent = b.events.length →
        ∀ e ∈ b.events, ∃ m ∈ n.ingest.pushed, Keeps ⟨some i,b.scope.envelope e⟩ m) := by
  intro n
  have h : Inv ⟨.openInMemory,vector⟩ n :=
    (inv_fresh schemas capacity embedSink forwardTx brokers vector).run l
  have hpos := pageLimit_pos hlimit
  refine ⟨h.accounted,fun schedule => ?_,fun hsettled hsweep => ⟨fun calls hcalls => ?_,?_,?_⟩⟩
  · obtain ⟨walk,hwalk,hascending,hmade⟩ := h.live rfl hcodec hrange hpos schedule
    refine ⟨walk,hwalk,hascending,fun e he => ?_⟩
    obtain ⟨hselects,hpushed⟩ := hmade e he
    exact ⟨hselects,made_of_pushed (h.run schedule.flatten).streams hpushed⟩
  · refine h.settled_reads rfl hcodec hrange hpos hsettled (fun policies nowMs hmem => ?_) hcalls
    rw [ops_run] at hmem
    exact hsweep policies nowMs (sweep_mem_opsAlong ((List.mem_append.mp hmem).resolve_left List.not_mem_nil))
  · exact h.streams.keeps_sent hsettled.drained.queue
  · intro i b hb hall e he
    exact made_of_batch h.streams hsettled.drained.queue hb hall he

/-- Batches of two. -/
def smallNode : NodeConfig where
  ingest := {
    ulid := crockfordText
    auth := ⟨fun t => if t = "t" then some ⟨"cam",fun _ => true,fun _ => true,none⟩ else none⟩
    fromSlice := fun _ => .error "EOF while parsing a value at line 1 column 0"
    busDepth := 2 }
  writer := { batchSize := 2 }
  embedder := constantEmbedder

def frameBody (tsMs : UInt64) : Json :=
  .object [("source_id",.string "cam"),("kind",.string "frame"),("ts_ms_utc",.number (.posInt tsMs)),
    ("semantic",.null)]

/-- A request with two events and one with a third; the writer's batch fills up, and a tick flushes the rest. -/
def threeFrames : List NodeAction :=
  [.ingest (.http (some "Bearer t") (.ok (.array [frameBody 5,frameBody 4])) 0 none),.ingest (.send 0),
    .ingest (.send 0),.ingest (.normalize 1 0 6 0),.recv (.ok ()),
    .ingest (.http (some "Bearer t") (.ok (frameBody 7)) 0 none),.ingest (.send 1),.ingest (.normalize 2 0 6 0),
    .recv (.ok ()),.ingest (.normalize 3 0 8 0),.recv (.ok ()),.tick (.ok ())]

def beforeSeven : GetWindowArgs := { startMs := 0, endMs := 7, limit := some 1 }

/-- The second event of the first request is read, the one at the end of the range is not. -/
theorem accepted_read_back_frames :
    let n := (fresh smallNode .empty 4 none none [] none).run threeFrames
    ∃ walk, n.follow fixedWidthCodec beforeSeven (List.replicate 3 []) none = .ok walk ∧
      (∃ e ∈ walk.pages.flatten, e.eventId = 2) ∧ ∀ e ∈ walk.pages.flatten, e.tsMsUtc < 7 := by
  intro n
  obtain ⟨-,-,hrest⟩ := accepted_read_back smallNode .empty 4 none none [] none threeFrames
    fixedWidthCodec_roundTrips (by decide : beforeSeven.startMs < beforeSeven.endMs) (by simp [beforeSeven])
  have hsettled : n.Settled := by
    refine ⟨⟨List.length_eq_zero_iff.mp ?_,?_⟩,List.length_eq_zero_iff.mp ?_,?_,?_⟩ <;> decide +kernel
  obtain ⟨walk,hwalk,-,hread⟩ := (hrest hsettled (by simp [threeFrames])).1 3 (by decide +kernel)
  have hsecond : (n.ingest.pushed.find? fun x => x.eventId = 2).map
      (fun e => (e.eventId,beforeSeven.filter.selects e.toStored)) = some (2,true) := by decide +kernel
  obtain ⟨e,he,hpair⟩ := Option.map_eq_some_iff.mp hsecond
  obtain ⟨hid,hselects⟩ := Prod.mk.inj hpair
  refine ⟨walk,hwalk,⟨e,(hread e).mpr ⟨hselects,?_⟩,hid⟩,fun e he => ?_⟩
  · rw [hid]
    exact he
  · exact (WindowFilter.selects_iff.mp ((hread e).mp he).1).2.1
end Node

end Percept
