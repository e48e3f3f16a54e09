import Percept.ColdStore

/-! The cold writer: it buffers what it receives and appends the buffer to the store when the
batch is full, at a tick, and at the end of its channel. A failed append drops the batch. -/
namespace Percept

/-- A message with a number that the code does not see. -/
structure Ticketed (α : Type) where
  ticket : ℕ
  val : α

structure ColdWriterMetrics where
  batchesCommitted : ℕ := 0
  eventsCommitted : ℕ := 0
  eventsDropped : ℕ := 0
  commitErrors : ℕ := 0
  pendingBuffer : ℕ := 0

/-- The last two fields record what became of the buffered events. -/
structure ColdWriter where
  buf : List (Ticketed Event)
  store : ColdStore
  metrics : ColdWriterMetrics
  committed : List (Ticketed Event)
  failed : List (Ticketed Event)

namespace ColdWriter

def new (store : ColdStore) : ColdWriter := ⟨[],store,{},[],[]⟩

def flush (w : ColdWriter) (commit : Except ColdError Unit) : ColdWriter :=
  match w.store.tryAppend commit (w.buf.map Ticketed.val) with
  | .ok store => { w with
      buf := []
      store
      metrics := { w.metrics with
        batchesCommitted := w.metrics.batchesCommitted+1
        eventsCommitted := w.metrics.eventsCommitted+w.buf.length
        pendingBuffer := 0 }
      committed := w.committed ++ w.buf }
  | .error _ => { w with
      buf := []
      metrics := { w.metrics with
        commitErrors := w.metrics.commitErrors+1
        eventsDropped := w.metrics.eventsDropped+w.buf.length
        pendingBuffer := 0 }
      failed := w.failed ++ w.buf }

def push (w : ColdWriter) (m : Ticketed Event) : ColdWriter :=
  { w with
    buf := w.buf ++ [m]
    metrics := { w.metrics with pendingBuffer := w.buf.length+1 } }

/-- `rx.recv()` gave an event. -/
def receive (batchSize : ℕ) (w : ColdWriter) (m : Ticketed Event) (commit : Except ColdError Unit) :
    ColdWriter :=
  if batchSize ≤ (w.push m).buf.length then (w.push m).flush commit else w.push m

/-- A tick, or the end of the channel. -/
def flushRest (w : ColdWriter) (commit : Except ColdError Unit) : ColdWriter :=
  if w.buf.isEmpty then w else w.flush commit

/-- Everything the writer ever received. -/
def held (w : ColdWriter) : List (Ticketed Event) := w.buf ++ (w.committed ++ w.failed)

/-- The counters count the events, and a committed event is stored under its id. -/
structure Sound (w : ColdWriter) : Prop where
  committed : w.metrics.eventsCommitted = w.committed.length
  failed : w.metrics.eventsDropped = w.failed.length
  stored : ∀ m ∈ w.committed, ∃ r ∈ w.store.events.rows, r.eventId = m.val.eventId

variable {w : ColdWriter} {commit : Except ColdError Unit}

theorem Sound.new (store : ColdStore) : (ColdWriter.new store).Sound :=
  ⟨rfl,rfl,fun _ h => nomatch h⟩

theorem flush_held (w : ColdWriter) (commit : Except ColdError Unit) :
    (w.flush commit).held.Perm w.held := by
  unfold flush
  split
  · simp only [held,List.nil_append]
    exact (List.perm_append_comm.append_right w.failed).trans (by simp)
  · simp only [held,List.nil_append,← List.append_assoc]
    exact List.perm_append_comm.trans (by simp)

theorem receive_held (batchSize : ℕ) (w : ColdWriter) (m : Ticketed Event)
    (commit : Except ColdError Unit) : (w.receive batchSize m commit).held.Perm (m::w.held) := by
  have hpush : (w.push m).held.Perm (m::w.held) := by
    simp only [held,push,List.append_assoc,List.singleton_append]
    exact List.perm_middle
  unfold receive
  split
  · exact (flush_held _ commit).trans hpush
  · exact hpush

theorem flushRest_held (w : ColdWriter) (commit : Except ColdError Unit) :
    (w.flushRest commit).held.Perm w.held := by
  unfold flushRest
  split
  · exact .refl _
  · exact flush_held w commit

theorem Sound.flush (h : w.Sound) (commit : Except ColdError Unit) : (w.flush commit).Sound := by
  unfold ColdWriter.flush
  split
  next store hstore =>
    have hrows : ∀ m ∈ w.committed ++ w.buf, ∃ r ∈ store.events.rows, r.eventId = m.val.eventId := by
      intro m hm
      rw [ColdStore.eq_append_of_tryAppend hstore]
      rcases List.mem_append.mp hm with hm | hm
      · obtain ⟨r,hr,hid⟩ := h.stored m hm
        exact ⟨r,KeyTable.mem_insertAll.mpr (Or.inl hr),hid⟩
      · exact KeyTable.exists_mem_insertAll _
          (List.mem_map_of_mem (List.mem_map_of_mem (f := Ticketed.val) hm))
    exact ⟨by simp [h.committed],h.failed,hrows⟩
  next => exact ⟨h.committed,by simp [h.failed],h.stored⟩

theorem Sound.receive (h : w.Sound) (batchSize : ℕ) (m : Ticketed Event)
    (commit : Except ColdError Unit) : (w.receive batchSize m commit).Sound := by
  have hpush : (w.push m).Sound := ⟨h.committed,h.failed,h.stored⟩
  unfold ColdWriter.receive
  split
  · exact hpush.flush commit
  · exact hpush

theorem Sound.flushRest (h : w.Sound) (commit : Except ColdError Unit) :
    (w.flushRest commit).Sound := by
  unfold ColdWriter.flushRest
  split
  · exact h
  · exact h.flush commit

end ColdWriter

end Percept
