import Percept.ColdStream
import Percept.SearchSound
import Percept.StoreWriters
import Percept.SweepRuns

/-! A node with its stores. The cold writer and the embedder take what the normalizer sends them, the
retention task deletes from the same stores, and clients read them meanwhile. -/
namespace Percept

structure NodeConfig where
  ingest : IngestConfig
  writer : ColdWriterConfig := {}
  embedder : Embedder
  task : EmbedderConfig := {}

/-- `ops` lists what was written to the stores since the start. -/
structure Node (cfg : NodeConfig) where
  ingest : IngestSystem cfg.ingest
  writer : ColdWriter
  task : Option EmbedderTask
  ops : List StoreOp

inductive NodeAction
  | ingest (a : IngestAction)
  | recv (commit : Except ColdError Unit)
  | tick (commit : Except ColdError Unit)
  | embedRecv (commit : Except String Unit)
  | embedTick (commit : Except String Unit)
  | sweep (policies : List RetentionPolicy) (nowMs : Int64) (dryRun : Bool)

/-- What goes on at the bus while the tasks of the stores take nothing. -/
def IngestAction.others : IngestAction → IngestAction
  | .consume takes => .consume (Pi.single .forwarder (takes .forwarder))
  | a => a

namespace Node

variable {cfg : NodeConfig}

def stores (n : Node cfg) : Stores := ⟨n.writer.store,n.task.map EmbedderTask.index⟩

def spawn (ingest : IngestSystem cfg.ingest) (st : Stores) : Node cfg :=
  ⟨ingest,.new st.cold,st.vector.map .new,[]⟩

/-- A turn of the cold writer. -/
def write (n : Node cfg) (w : ColdWriter) : Node cfg :=
  { n with writer := w, ops := n.ops ++ [.append (n.writer.newly w)] }

/-- A turn of the embedder, with the events that it has at hand. -/
def embed (n : Node cfg) (t t' : EmbedderTask) (offered : List Event) : Node cfg :=
  { n with
    task := some t'
    ops := n.ops ++ [.appendVectors ((t.newly t' offered).map (buildRecord cfg.embedder))] }

/-- The retention task goes over both stores. -/
def retain (n : Node cfg) (op : StoreOp) : Node cfg :=
  { n with
    writer := { n.writer with store := (n.stores.apply op).cold }
    task := n.task.bind fun t => (n.stores.apply op).vector.map fun index => { t with index }
    ops := n.ops ++ [op] }

/-- The events that wait for a consumer. -/
def waiting (n : Node cfg) (c : Consumer) : List Event :=
  ((n.ingest.normalizer.channel c).map Channel.queue).getD []

/-- A consumer takes the oldest of them. -/
def taken (n : Node cfg) (c : Consumer) : IngestSystem cfg.ingest :=
  n.ingest.step (.consume (Pi.single c 1))

/-- A step; one that is not possible now changes nothing. -/
def step (n : Node cfg) : NodeAction → Node cfg
  | .ingest a => { n with ingest := n.ingest.step a.others }
  | .recv commit => match n.waiting .coldWriter with
    | [] => n
    | e::_ =>
      let w := n.writer.receive cfg.writer.batchSize ⟨n.writer.held.length,e⟩ commit
      { n.write w with ingest := n.taken .coldWriter }
  | .tick commit => n.write (n.writer.flushRest commit)
  | .embedRecv commit => match n.task with
    | none => n
    | some t => match n.waiting .embedder with
      | [] => n
      | e::_ =>
        let t' := t.receive cfg.task.batchSize cfg.embedder e commit
        { n.embed t t' (t.buf ++ [e]) with ingest := n.taken .embedder }
  | .embedTick commit => match n.task with
    | none => n
    | some t => n.embed t (t.flushRest cfg.embedder commit) t.buf
  | .sweep policies nowMs dryRun => n.retain (.sweep policies nowMs dryRun)

def run (n : Node cfg) (l : List NodeAction) : Node cfg := l.foldl step n

@[simp] theorem run_nil (n : Node cfg) : n.run [] = n := rfl

@[simp] theorem run_cons (n : Node cfg) (a : NodeAction) (l : List NodeAction) :
    n.run (a::l) = (n.step a).run l := rfl

theorem run_append (n : Node cfg) (l l' : List NodeAction) : n.run (l ++ l') = (n.run l).run l' :=
  List.foldl_append ..

/-- What a run of the node does to its stores is a run of the stores. -/
def Wrote (n n' : Node cfg) (ops : List StoreOp) : Prop :=
  n'.ops = n.ops ++ ops ∧ n'.stores = n.stores.run ops

theorem Wrote.refl (n : Node cfg) : Wrote n n [] := ⟨(List.append_nil _).symm,rfl⟩

theorem Wrote.trans {n₁ n₂ n₃ : Node cfg} {ops ops' : List StoreOp} (h : Wrote n₁ n₂ ops)
    (h' : Wrote n₂ n₃ ops') : Wrote n₁ n₃ (ops ++ ops') := by
  refine ⟨?_,?_⟩
  · rw [h'.1,h.1,List.append_assoc]
  · rw [h'.2,h.2]
    exact (List.foldl_append ..).symm

theorem wrote_write {n : Node cfg} {w : ColdWriter} (h : n.writer.Commits w) :
    Wrote n (n.write w) [.append (n.writer.newly w)] :=
  ⟨rfl,congrArg (Stores.mk · (n.task.map EmbedderTask.index)) h.newly.1⟩

theorem wrote_embed {n : Node cfg} {t t' : EmbedderTask} {offered : List Event} (htask : n.task = some t)
    (h : t.Commits cfg.embedder t' offered) : Wrote n (n.embed t t' offered)
      [.appendVectors ((t.newly t' offered).map (buildRecord cfg.embedder))] := by
  refine ⟨rfl,?_⟩
  change (⟨n.writer.store,some t'.index⟩ : Stores) = (n.stores.apply (.appendVectors _))
  rw [h.newly,stores,htask]
  rfl

theorem wrote_retain (n : Node cfg) (policies : List RetentionPolicy) (nowMs : Int64) (dryRun : Bool) :
    Wrote n (n.retain (.sweep policies nowMs dryRun)) [.sweep policies nowMs dryRun] := by
  refine ⟨rfl,?_⟩
  have hvector : (n.stores.apply (.sweep policies nowMs dryRun)).vector.isSome = n.stores.vector.isSome :=
    (sweepPairs_vectorRows policies nowMs dryRun _ _ n.stores).2
  change Stores.mk (n.stores.apply (.sweep policies nowMs dryRun)).cold (Option.map _ (n.task.bind fun t =>
    Option.map (fun index => { t with index }) (n.stores.apply (.sweep policies nowMs dryRun)).vector)) =
      n.stores.apply (.sweep policies nowMs dryRun)
  generalize n.stores.apply (.sweep policies nowMs dryRun) = st at hvector ⊢
  refine congrArg (Stores.mk st.cold) ?_
  cases htask : n.task with
  | none =>
    rw [stores,htask] at hvector
    exact (Option.isNone_iff_eq_none.mp (Option.isSome_eq_false_iff.mp hvector)).symm
  | some t =>
    obtain ⟨index,hindex⟩ := Option.isSome_iff_exists.mp (hvector.trans (by rw [stores,htask]; rfl))
    rw [hindex]
    rfl

/-- The operations of one step. -/
def opsOf (n : Node cfg) : NodeAction → List StoreOp
  | .ingest _ => []
  | .recv commit => match n.waiting .coldWriter with
    | [] => []
    | e::_ => [.append (n.writer.newly
        (n.writer.receive cfg.writer.batchSize ⟨n.writer.held.length,e⟩ commit))]
  | .tick commit => [.append (n.writer.newly (n.writer.flushRest commit))]
  | .embedRecv commit => match n.task with
    | none => []
    | some t => match n.waiting .embedder with
      | [] => []
      | e::_ => [.appendVectors ((t.newly (t.receive cfg.task.batchSize cfg.embedder e commit)
          (t.buf ++ [e])).map (buildRecord cfg.embedder))]
  | .embedTick commit => match n.task with
    | none => []
    | some t => [.appendVectors ((t.newly (t.flushRest cfg.embedder commit) t.buf).map
        (buildRecord cfg.embedder))]
  | .sweep policies nowMs dryRun => [.sweep policies nowMs dryRun]

theorem step_wrote (n : Node cfg) (a : NodeAction) : Wrote n (n.step a) (n.opsOf a) := by
  cases a with
  | ingest a => exact .refl n
  | recv commit =>
    unfold Node.step opsOf
    cases n.waiting .coldWriter with
    | nil => exact .refl n
    | cons e rest => exact wrote_write (ColdWriter.commits_receive _ _ _ _)
  | tick commit => exact wrote_write (ColdWriter.commits_flushRest _ _)
  | embedRecv commit =>
    unfold Node.step opsOf
    cases htask : n.task with
    | none => exact .refl n
    | some t =>
      cases n.waiting .embedder with
      | nil => exact .refl n
      | cons e rest => exact wrote_embed htask (EmbedderTask.commits_receive _ _ _ _ _)
  | embedTick commit =>
    unfold Node.step opsOf
    cases htask : n.task with
    | none => exact .refl n
    | some t => exact wrote_embed htask (EmbedderTask.commits_flushRest _ _ _)
  | sweep policies nowMs dryRun => exact wrote_retain n policies nowMs dryRun

/-- The operations of a run. -/
def opsAlong (n : Node cfg) : List NodeAction → List StoreOp
  | [] => []
  | a::l => n.opsOf a ++ (n.step a).opsAlong l

theorem run_wrote (n : Node cfg) (l : List NodeAction) : Wrote n (n.run l) (n.opsAlong l) := by
  induction l generalizing n with
  | nil => exact .refl n
  | cons a l ih => exact (n.step_wrote a).trans (ih (n.step a))

section Reading

variable {codec : CursorCodec} {args : GetWindowArgs}

/-- A client calls `get_window` and passes its cursor back, while the node goes on between the calls. -/
def follow (n : Node cfg) (codec : CursorCodec) (args : GetWindowArgs) :
    List (List NodeAction) → Option String → Except ToolError Followed
  | [], cursor =>
    match getWindow codec (some n.writer.store) { args with cursor } with
    | .error e => .error e
    | .ok out => .ok ⟨[n.writer.store],[out.events],out.cursor⟩
  | l::schedule, cursor =>
    match getWindow codec (some n.writer.store) { args with cursor } with
    | .error e => .error e
    | .ok ⟨events,none⟩ => .ok ⟨[n.writer.store],[events],none⟩
    | .ok ⟨events,some c⟩ =>
      match (n.run l).follow codec args schedule (some c) with
      | .error e => .error e
      | .ok rest => .ok ⟨n.writer.store::rest.contents,events::rest.pages,rest.cursor⟩

/-- The operations between the calls. -/
def opsBetween (n : Node cfg) : List (List NodeAction) → List (List StoreOp)
  | [] => []
  | l::schedule => n.opsAlong l::(n.run l).opsBetween schedule

/-- For its readers the node is its stores. -/
theorem follow_eq (schedule : List (List NodeAction)) (cursor : Option String) (n : Node cfg) :
    n.follow codec args schedule cursor = Percept.follow codec args (n.opsBetween schedule) cursor n.stores := by
  induction schedule generalizing n cursor with
  | nil => rfl
  | cons l schedule ih =>
    have hcold : n.stores.cold = n.writer.store := rfl
    have hrun := (n.run_wrote l).2
    unfold Node.follow opsBetween Percept.follow
    rw [hcold]
    cases getWindow codec (some n.writer.store) { args with cursor } with
    | error e => rfl
    | ok out =>
      cases out with
      | mk events next =>
        cases next with
        | none => rfl
        | some c =>
          have hrest := ih (some c) (n.run l)
          rw [hrun] at hrest
          cases hnode : (n.run l).follow codec args schedule (some c) with
          | error e => simp only [hnode,hrest.symm.trans hnode]
          | ok rest => simp only [hnode,hrest.symm.trans hnode]

end Reading

/-- All that holds of the way from the bus to the store. -/
structure Inv (st : Stores) (n : Node cfg) : Prop where
  streams : n.ingest.Streams
  held : ∃ tx, n.ingest.Feeds .coldWriter (fun _ => true) tx ∧ n.writer.Holds tx.received
  appended : n.ops.flatMap StoreOp.events = n.writer.committed.map Ticketed.val
  stores : n.stores = st.run n.ops

section Invariant

variable {st : Stores} {n : Node cfg}

theorem others_takes {a : IngestAction} {takes : Consumer → ℕ} {c : Consumer} (hc : c ≠ .forwarder)
    (h : a.others = .consume takes) : takes c = 0 := by
  cases a with
  | consume takes' =>
    obtain rfl := IngestAction.consume.inj h
    exact Pi.single_eq_of_ne hc _
  | http | wsOpen | wsMessage | wsClose | send | poll | normalize | close => cases h

theorem waiting_eq {c : Consumer} {p : Event → Bool} {tx : Channel Event} (h : n.ingest.Feeds c p tx) : n.waiting c = tx.queue := by
  rw [waiting,h.channel,Option.map_some,Option.getD_some]

/-- Another consumer takes an event. -/
theorem feeds_taken_ne {c c' : Consumer} {p : Event → Bool} {tx : Channel Event} (h : n.ingest.Feeds c p tx) (hne : c ≠ c') :
    (n.taken c').Feeds c p tx := by
  have hconsume := h.consume (Pi.single c' 1)
  rwa [Pi.single_eq_of_ne hne] at hconsume

theorem feeds_taken {c : Consumer} {p : Event → Bool} {tx : Channel Event} (h : n.ingest.Feeds c p tx) :
    (n.taken c).Feeds c p tx.recv := by
  have hconsume := h.consume (Pi.single c 1)
  rwa [Pi.single_eq_same,Function.iterate_one] at hconsume

theorem Inv.wrote (h : Inv st n) {n' : Node cfg} {ops : List StoreOp} (hwrote : Wrote n n' ops) :
    n'.stores = st.run n'.ops := by
  rw [hwrote.1,hwrote.2,h.stores]
  exact (List.foldl_append ..).symm

/-- A step that writes no events to the log. -/
theorem Inv.aside (h : Inv st n) {n' : Node cfg} {op : StoreOp} (hwrote : Wrote n n' [op])
    (hop : op.events = []) {store : ColdStore} (hwriter : n'.writer = { n.writer with store })
    (hstreams : n'.ingest.Streams)
    (hfeeds : ∀ tx, n.ingest.Feeds .coldWriter (fun _ => true) tx → n'.ingest.Feeds .coldWriter (fun _ => true) tx) : Inv st n' where
  streams := hstreams
  held := by
    obtain ⟨tx,htx,hheld⟩ := h.held
    refine ⟨tx,hfeeds tx htx,?_⟩
    rw [hwriter]
    exact ⟨hheld.ordered,hheld.counted,hheld.committed,hheld.pending⟩
  appended := by
    rw [hwrote.1,List.flatMap_append,List.flatMap_singleton,hop,List.append_nil,hwriter]
    exact h.appended
  stores := h.wrote hwrote

theorem Inv.written_by (h : Inv st n) {w : ColdWriter} (hw : n.writer.Commits w) :
    (n.write w).ops.flatMap StoreOp.events = w.committed.map Ticketed.val := by
  rw [(wrote_write hw).1,List.flatMap_append,h.appended,hw.newly.2]
  exact congrArg _ (List.append_nil _)

theorem Inv.step (h : Inv st n) (a : NodeAction) : Inv st (n.step a) := by
  have hstores := h.wrote (n.step_wrote a)
  obtain ⟨tx,htx,hheld⟩ := h.held
  cases a with
  | ingest a =>
    obtain ⟨tx',htx',hreceived⟩ := htx.step a.others
    refine ⟨h.streams.step a.others,⟨tx',htx',?_⟩,h.appended,h.stores⟩
    rw [hreceived fun takes htakes => others_takes (by decide) htakes]
    exact hheld
  | recv commit =>
    unfold Node.step at hstores ⊢
    rw [waiting_eq htx] at hstores ⊢
    cases hqueue : tx.queue with
    | nil => exact h
    | cons e rest =>
      rw [hqueue] at hstores
      have hw := h.written_by (ColdWriter.commits_receive cfg.writer.batchSize n.writer
        ⟨n.writer.held.length,e⟩ commit)
      refine ⟨h.streams.step (.consume (Pi.single .coldWriter 1)),⟨tx.recv,feeds_taken htx,?_⟩,hw,hstores⟩
      rw [Channel.received_recv hqueue]
      exact hheld.receive cfg.writer.batchSize ⟨n.writer.held.length,e⟩ commit
  | tick commit =>
    have hw := h.written_by (ColdWriter.commits_flushRest n.writer commit)
    exact ⟨h.streams,⟨tx,htx,hheld.flushRest commit⟩,hw,hstores⟩
  | embedRecv commit =>
    have hwrote := n.step_wrote (.embedRecv commit)
    unfold Node.step opsOf at hwrote
    unfold Node.step
    cases htask : n.task with
    | none => exact h
    | some t =>
      cases hwaiting : n.waiting .embedder with
      | nil => exact h
      | cons e rest =>
        simp only [htask,hwaiting] at hwrote
        exact h.aside hwrote rfl rfl (h.streams.step (.consume (Pi.single .embedder 1)))
          fun tx htx => feeds_taken_ne htx (by decide)
  | embedTick commit =>
    have hwrote := n.step_wrote (.embedTick commit)
    unfold Node.step opsOf at hwrote
    unfold Node.step
    cases htask : n.task with
    | none => exact h
    | some t =>
      simp only [htask] at hwrote
      exact h.aside hwrote rfl rfl h.streams fun _ htx => htx
  | sweep policies nowMs dryRun =>
    exact h.aside (n.step_wrote (.sweep policies nowMs dryRun)) rfl rfl h.streams fun _ htx => htx

theorem Inv.run (h : Inv st n) (l : List NodeAction) : Inv st (n.run l) := by
  induction l generalizing n with
  | nil => exact h
  | cons a l ih => exact ih (h.step a)

theorem stores_spawn (ingest : IngestSystem cfg.ingest) (st : Stores) : (spawn ingest st).stores = st := by
  have hindex : EmbedderTask.index ∘ EmbedderTask.new = id := rfl
  rw [stores,spawn,Option.map_map,hindex,Option.map_id]
  rfl

theorem Inv.spawn {ingest : IngestSystem cfg.ingest} {tx : Channel Event} (hstreams : ingest.Streams)
    (htx : ingest.Feeds .coldWriter (fun _ => true) tx) (hreceived : tx.received = []) : Inv st (spawn ingest st) :=
  ⟨hstreams,⟨tx,htx,hreceived ▸ .new st.cold⟩,rfl,stores_spawn ingest st⟩

/-- Every event that the normalizer made is committed, dropped by a counter, in the buffer or waiting. -/
theorem Inv.accounted (h : Inv st n) : n.ingest.pushed.length =
    n.writer.metrics.eventsCommitted+n.writer.metrics.eventsDropped+n.writer.metrics.pendingBuffer+
      (n.waiting .coldWriter).length+n.ingest.normalizer.metrics.consumerDrops "cold_writer" := by
  obtain ⟨tx,htx,hheld⟩ := h.held
  have hcounted := htx.counted
  rw [Channel.sent,List.length_append,List.filter_true] at hcounted
  rw [hheld.counted,waiting_eq htx]
  exact hcounted.symm

/-- Nothing is on its way and nothing was lost. -/
structure Settled (n : Node cfg) : Prop where
  drained : n.ingest.Drained
  waiting : n.waiting .coldWriter = []
  dropped : n.writer.metrics.eventsDropped = 0
  pending : n.writer.metrics.pendingBuffer = 0

/-- What was written to the store is then all that the normalizer made. -/
theorem Inv.written (h : Inv st n) (hsettled : n.Settled) :
    n.ops.flatMap StoreOp.events = n.ingest.pushed := by
  obtain ⟨tx,htx,hheld⟩ := h.held
  have hqueue : tx.queue = [] := (waiting_eq htx).symm.trans hsettled.waiting
  have hsent := htx.sent_eq hsettled.drained.drops
  rw [List.filter_true,Channel.sent,hqueue,List.append_nil] at hsent
  rw [h.appended,hheld.committed_eq hsettled.dropped hsettled.pending,hsent]

/-- What was written is in any case among it. -/
theorem Inv.written_subset (h : Inv st n) : n.ops.flatMap StoreOp.events ⊆ n.ingest.pushed := by
  obtain ⟨tx,htx,hheld⟩ := h.held
  rw [h.appended]
  have hcommitted : (n.writer.committed.map Ticketed.val).Sublist tx.received :=
    ((List.sublist_append_left _ _).map _).trans hheld.ordered
  have hsent := (hcommitted.trans (List.sublist_append_left _ _)).trans htx.ordered
  rw [List.filter_true] at hsent
  exact hsent.subset

end Invariant

end Node

/-- A row of a store is one of the rows at the start or one of the appended events'. -/
theorem mem_arrived_of_run {st : Stores} {ops : List StoreOp} {r : EventRow}
    (h : r ∈ (st.run ops).cold.events.rows) : r ∈ arrived st.cold ops := by
  induction ops generalizing st with
  | nil => exact List.mem_append_left _ h
  | cons op ops ih =>
    have hrest := ih h
    unfold arrived at hrest ⊢
    rw [List.flatMap_cons,List.map_append,← List.append_assoc]
    refine List.append_subset.mpr ⟨?_,List.subset_append_right _ _⟩ hrest
    refine List.Subset.trans ?_ (List.subset_append_left _ _)
    cases op with
    | append events => exact (KeyTable.insertAll_sublist _ _).subset
    | appendVectors records => exact List.subset_append_left _ _
    | sweep policies nowMs dryRun =>
      refine List.Subset.trans ?_ (List.subset_append_left _ _)
      cases dryRun with
      | true =>
        have hsame : (Percept.sweep policies nowMs true st).2 = st := sweepPairs_dry_snd _ _ _
        rw [Stores.apply,hsame]
        exact List.Subset.refl _
      | false => exact (sweep_sublist policies nowMs st).subset

/-- A log without real sweeps is what was appended. -/
theorem cold_run_of_kept {st : Stores} {ops : List StoreOp}
    (h : ∀ policies nowMs, StoreOp.sweep policies nowMs false ∉ ops) :
    (st.run ops).cold = unswept st.cold ops := by
  induction ops generalizing st with
  | nil => rfl
  | cons op ops ih =>
    have hrest : ∀ policies nowMs, StoreOp.sweep policies nowMs false ∉ ops := fun policies nowMs hmem =>
      h policies nowMs (List.mem_cons_of_mem _ hmem)
    refine (ih hrest).trans ?_
    cases op with
    | append events => rfl
    | appendVectors records => rfl
    | sweep policies nowMs dryRun =>
      cases dryRun with
      | true =>
        have hsame : (Percept.sweep policies nowMs true st).2 = st := sweepPairs_dry_snd _ _ _
        rw [Stores.apply,hsame]
        rfl
      | false => exact absurd List.mem_cons_self (h policies nowMs)

end Percept
