import Percept.Client
import Percept.ColdWriter
import Percept.Forwarder
import Percept.Lib.Batching
import Percept.Replay
import Percept.SearchEvents

/-! The four loops that collect events and flush them: the cold writer, the embedder task, the
forwarder and the batcher of the client. They differ in what a flush does with a batch, and in what
becomes of a batch whose flush fails. -/
namespace Percept

structure ColdWriterConfig where
  batchSize : ℕ := 256

namespace ColdWriter

/-- `ColdWriter::run`. -/
def run (config : ColdWriterConfig) :
    BatchTask (Ticketed Event) (Ticketed Event) ColdWriter (Except ColdError Unit) where
  batchSize := config.batchSize
  convert := id
  buf := ColdWriter.buf
  push := ColdWriter.push
  flush := ColdWriter.flush
  buf_push _ _ := rfl
  buf_flush w commit := by
    unfold ColdWriter.flush
    split <;> rfl

variable {config : ColdWriterConfig}
  {l : BatchLoop (Ticketed Event) (Ticketed Event) ColdWriter (Except ColdError Unit)}

theorem run_onEvent (m : Ticketed Event) (commit : Except ColdError Unit) :
    ((run config).onEvent l m commit).task = l.task.receive config.batchSize m commit := by
  unfold BatchTask.onEvent receive
  exact apply_ite BatchLoop.task _ _ _

theorem run_flushRest (commit : Except ColdError Unit) :
    ((run config).flushRest l commit).task = l.task.flushRest commit := by
  unfold BatchTask.flushRest flushRest
  exact apply_ite BatchLoop.task _ _ _

/-- Every flushed event is counted once, as committed or as dropped. -/
theorem counts (config : ColdWriterConfig) : (run config).Folds
    (fun w => w.metrics.eventsCommitted+w.metrics.eventsDropped) fun n batch _ => n+batch.length where
  push _ _ := rfl
  flush w commit := by
    change (w.flush commit).metrics.eventsCommitted+(w.flush commit).metrics.eventsDropped =
      w.metrics.eventsCommitted+w.metrics.eventsDropped+w.buf.length
    unfold ColdWriter.flush
    split
    next =>
      simp only
      omega
    next =>
      simp only
      omega

/-- The store after a batch. -/
def commitTo (s : ColdStore) (batch : List (Ticketed Event)) (commit : Except ColdError Unit) : ColdStore :=
  match s.tryAppend commit (batch.map Ticketed.val) with
  | .ok s' => s'
  | .error _ => s

theorem commitTo_ok (s : ColdStore) (batch : List (Ticketed Event)) :
    commitTo s batch (.ok ()) = s.append (batch.map Ticketed.val) := by
  unfold commitTo
  split
  next s' hs' => exact ColdStore.eq_append_of_tryAppend hs'
  next e he =>
    unfold ColdStore.tryAppend at he
    split at he <;> cases he

/-- The transaction of a failed append is undone. -/
theorem commitTo_error (s : ColdStore) (batch : List (Ticketed Event)) (e : ColdError) :
    commitTo s batch (.error e) = s := by
  unfold commitTo
  split
  next s' hs' =>
    unfold ColdStore.tryAppend at hs'
    split at hs'
    · exact (Except.ok.inj hs').symm
    · cases hs'
  next => rfl

theorem stores (config : ColdWriterConfig) : (run config).Folds ColdWriter.store commitTo where
  push _ _ := rfl
  flush w commit := by
    change (w.flush commit).store = commitTo w.store w.buf commit
    unfold ColdWriter.flush commitTo
    cases w.store.tryAppend commit (w.buf.map Ticketed.val) <;> rfl

theorem foldl_commitTo {flushed : List (List (Ticketed Event) × Except ColdError Unit)}
    (h : ∀ b ∈ flushed, b.2 = .ok ()) (s : ColdStore) :
    flushed.foldl (fun s b => commitTo s b.1 b.2) s =
      s.appendAll (flushed.map fun b => b.1.map Ticketed.val) := by
  induction flushed generalizing s with
  | nil => rfl
  | cons b flushed ih =>
    rw [List.foldl_cons,h b List.mem_cons_self,commitTo_ok,
      ih fun b hb => h b (List.mem_cons_of_mem _ hb)]
    rfl

/-- However the ticks fall, a writer whose commits succeed leaves the log of what it received, as one
append of all of it would. -/
theorem log_at_exit (config : ColdWriterConfig) (hsize : 1 ≤ config.batchSize) (capacity : ℕ)
    (actions : List (BatchAction (Ticketed Event) (Except ColdError Unit))) :
    Runs.Always (run config).step (fun l => l.exited = true → (∀ b ∈ l.flushed, b.2 = .ok ()) →
        l.task.store = ColdStore.openInMemory.append (l.rx.received.map Ticketed.val))
      (BatchTask.start (.new .openInMemory) capacity) actions := by
  have hkept := BatchTask.always_kept (t := run config) (.new .openInMemory) rfl hsize capacity actions
  have hstore := (stores config).always (.new .openInMemory) capacity actions
  refine (hkept.and hstore).mono fun l ⟨hl,hfold⟩ hexit hcommits => ?_
  have hbuf : l.task.buf = [] := (hl.exit hexit).1
  have horder : l.flushed.flatMap Prod.fst ++ l.task.buf = l.rx.received.map id := hl.order
  rw [hbuf,List.append_nil,List.map_id] at horder
  have hflat : (l.flushed.map fun b => b.1.map Ticketed.val).flatten =
      [l.rx.received.map Ticketed.val].flatten := by
    rw [← horder,List.flatten_singleton,List.map_flatMap,List.flatMap]
  have hlog := ColdStore.appendAll_openInMemory_congr hflat
  rw [← foldl_commitTo hcommits] at hlog
  exact hfold.trans hlog

end ColdWriter

/-- `append` with SQLite's verdict on the transaction. -/
def VectorIndex.tryAppend (s : VectorIndex) (commit : Except String Unit) (records : List VectorRecord) :
    Except String VectorIndex :=
  if records.isEmpty then .ok s else commit.map fun () => s.append records

structure EmbedderConfig where
  batchSize : ℕ := 64

structure EmbedderMetrics where
  batchesCommitted : ℕ := 0
  eventsEmbedded : ℕ := 0
  eventsTruncated : ℕ := 0
  commitErrors : ℕ := 0
  pendingBuffer : ℕ := 0

structure EmbedderTask where
  buf : List Event
  index : VectorIndex
  metrics : EmbedderMetrics

namespace EmbedderTask

def new (index : VectorIndex) : EmbedderTask := ⟨[],index,{}⟩

def push (t : EmbedderTask) (event : Event) : EmbedderTask where
  buf := t.buf ++ [event]
  index := t.index
  metrics := { t.metrics with pendingBuffer := t.buf.length+1 }

/-- A payload always serializes, so every event of the buffer has a record. -/
def flush (embedder : Embedder) (t : EmbedderTask) (commit : Except String Unit) : EmbedderTask :=
  let records := t.buf.map (buildRecord embedder)
  let metrics := { t.metrics with
    eventsTruncated := t.metrics.eventsTruncated+records.countP fun r : VectorRecord => r.truncated
    pendingBuffer := 0 }
  match t.index.tryAppend commit records with
  | .ok index => ⟨[],index,{ metrics with
      batchesCommitted := metrics.batchesCommitted+1
      eventsEmbedded := metrics.eventsEmbedded+records.length }⟩
  | .error _ => ⟨[],t.index,{ metrics with commitErrors := metrics.commitErrors+1 }⟩

/-- `EmbedderTask::run`. -/
def run (config : EmbedderConfig) (embedder : Embedder) :
    BatchTask Event Event EmbedderTask (Except String Unit) where
  batchSize := config.batchSize
  convert := id
  buf := EmbedderTask.buf
  push := EmbedderTask.push
  flush := EmbedderTask.flush embedder
  buf_push _ _ := rfl
  buf_flush _ _ := by
    unfold EmbedderTask.flush
    dsimp only
    split <;> rfl

end EmbedderTask

structure ForwarderConfig where
  peerId : String := "edge"
  batchSize : ℕ := 64

structure ForwarderMetrics where
  batchesSent : ℕ := 0
  eventsForwarded : ℕ := 0
  eventsDropped : ℕ := 0
  sendErrors : ℕ := 0

structure Forwarder where
  buf : List ClientEvent
  metrics : ForwarderMetrics

namespace Forwarder

def new : Forwarder := ⟨[],{}⟩

/-- With the result of `client.send_batch(&batch)`. -/
def flush (f : Forwarder) (sent : Except ClientError ℕ) : Forwarder :=
  let n := f.buf.length
  match sent with
  | .ok accepted => ⟨[],{ f.metrics with
      batchesSent := f.metrics.batchesSent+1
      eventsForwarded := f.metrics.eventsForwarded+accepted
      eventsDropped := if accepted < n then f.metrics.eventsDropped+(n-accepted)
        else f.metrics.eventsDropped }⟩
  | .error _ => ⟨[],{ f.metrics with
      sendErrors := f.metrics.sendErrors+1
      eventsDropped := f.metrics.eventsDropped+n }⟩

/-- `Forwarder::run`. -/
def run (config : ForwarderConfig) : BatchTask Event ClientEvent Forwarder (Except ClientError ℕ) where
  batchSize := config.batchSize
  convert := toClientEvent config.peerId
  buf := Forwarder.buf
  push f event := { f with buf := f.buf ++ [toClientEvent config.peerId event] }
  flush := Forwarder.flush
  buf_push _ _ := rfl
  buf_flush _ sent := by cases sent <;> rfl

/-- What a flush adds to the two counters of events. -/
def settled (batch : List ClientEvent) : Except ClientError ℕ → ℕ
  | .ok accepted => accepted+(batch.length-accepted)
  | .error _ => batch.length

theorem counts (config : ForwarderConfig) : (run config).Folds
    (fun f => f.metrics.eventsForwarded+f.metrics.eventsDropped)
    fun n batch sent => n+settled batch sent where
  push _ _ := rfl
  flush f sent := by
    change (f.flush sent).metrics.eventsForwarded+(f.flush sent).metrics.eventsDropped =
      f.metrics.eventsForwarded+f.metrics.eventsDropped+settled f.buf sent
    cases sent with
    | ok accepted =>
      simp only [flush,settled]
      split <;> omega
    | error e =>
      simp only [flush,settled]
      omega

end Forwarder

structure BatcherConfig where
  maxBatch : ℕ := 64
  queueDepth : ℕ := 1024

/-- The background task of a `Batcher` has its buffer only; what a flush could not send is lost. -/
def Batcher.run (config : BatcherConfig) :
    BatchTask ClientEvent ClientEvent (List ClientEvent) (Except ClientError ℕ) where
  batchSize := config.maxBatch
  convert := id
  buf buf := buf
  push buf event := buf ++ [event]
  flush _ _ := []
  buf_push _ _ := rfl
  buf_flush _ _ := rfl

section Runs

open BatchTask

/-- The hub accepts no more of a batch than it has. -/
def Forwarder.HubCounts (l : BatchLoop Event ClientEvent Forwarder (Except ClientError ℕ)) : Prop :=
  ∀ b ∈ l.flushed, ∀ accepted, b.2 = .ok accepted → accepted ≤ b.1.length

theorem Forwarder.total_settled {l : BatchLoop Event ClientEvent Forwarder (Except ClientError ℕ)}
    (h : HubCounts l) : total settled l = (l.flushed.flatMap Prod.fst).length := by
  rw [total,List.length_flatMap]
  refine congrArg List.sum (List.map_congr_left fun b hb => ?_)
  cases hsent : b.2 with
  | ok accepted =>
    have hle := h b hb accepted hsent
    exact Nat.add_sub_cancel' hle
  | error e => rfl

end Runs

end Percept
