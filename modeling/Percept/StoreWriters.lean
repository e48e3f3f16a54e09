import Percept.BatchLoops

/-! The two tasks that write to the stores, turn by turn: what a turn commits, and what a task holds of
the events that it received. -/
namespace Percept

theorem ColdStore.append_nil (s : ColdStore) : s.append [] = s := rfl

namespace ColdWriter

variable {w w' : ColdWriter} {received : List Event}

/-- The writer committed a batch and nothing else happened to the store; the batch can be empty. -/
def Commits (w w' : ColdWriter) : Prop :=
  ∃ batch, w'.committed = w.committed ++ batch ∧ w'.store = w.store.append (batch.map Ticketed.val)

theorem Commits.refl (w : ColdWriter) : Commits w w := ⟨[],(List.append_nil _).symm,rfl⟩

theorem commits_flush (w : ColdWriter) (commit : Except ColdError Unit) : Commits w (w.flush commit) := by
  unfold ColdWriter.flush
  split
  next store hstore => exact ⟨w.buf,rfl,ColdStore.eq_append_of_tryAppend hstore⟩
  next => exact ⟨[],(List.append_nil _).symm,rfl⟩

theorem commits_receive (batchSize : ℕ) (w : ColdWriter) (m : Ticketed Event)
    (commit : Except ColdError Unit) : Commits w (w.receive batchSize m commit) := by
  unfold ColdWriter.receive
  split
  · exact commits_flush (w.push m) commit
  · exact .refl w

theorem commits_flushRest (w : ColdWriter) (commit : Except ColdError Unit) :
    Commits w (w.flushRest commit) := by
  unfold ColdWriter.flushRest
  split
  · exact .refl w
  · exact commits_flush w commit

/-- The batch of `Commits`. -/
def newly (w w' : ColdWriter) : List Event :=
  (w'.committed.drop w.committed.length).map Ticketed.val

theorem Commits.newly (h : Commits w w') : w'.store = w.store.append (w.newly w') ∧
    w'.committed.map Ticketed.val = w.committed.map Ticketed.val ++ w.newly w' := by
  obtain ⟨batch,hcommitted,hstore⟩ := h
  rw [ColdWriter.newly,hcommitted,List.drop_left,List.map_append]
  exact ⟨hstore,rfl⟩

/-- What the writer has and what it received. A failed batch is counted and gone. -/
structure Holds (w : ColdWriter) (received : List Event) : Prop where
  ordered : ((w.committed ++ w.buf).map Ticketed.val).Sublist received
  counted : w.metrics.eventsCommitted+w.metrics.eventsDropped+w.metrics.pendingBuffer = received.length
  committed : w.metrics.eventsCommitted = w.committed.length
  pending : w.metrics.pendingBuffer = w.buf.length

theorem Holds.new (store : ColdStore) : (ColdWriter.new store).Holds [] :=
  ⟨List.Sublist.refl _,rfl,rfl,rfl⟩

theorem Holds.push (h : w.Holds received) (m : Ticketed Event) :
    (w.push m).Holds (received ++ [m.val]) where
  ordered := by
    change ((w.committed ++ (w.buf ++ [m])).map Ticketed.val).Sublist _
    rw [← List.append_assoc,List.map_append]
    exact h.ordered.append (.refl _)
  counted := by
    have hcounted := h.counted
    rw [h.pending] at hcounted
    change w.metrics.eventsCommitted+w.metrics.eventsDropped+(w.buf.length+1) = _
    rw [List.length_append,List.length_singleton]
    omega
  committed := h.committed
  pending := (@List.length_append _ w.buf [m]).symm

theorem Holds.flush (h : w.Holds received) (commit : Except ColdError Unit) :
    (w.flush commit).Holds received := by
  have hcounted := h.counted
  rw [h.pending] at hcounted
  unfold ColdWriter.flush
  split
  next =>
    refine ⟨?_,?_,?_,rfl⟩
    · rw [List.append_nil]
      exact h.ordered
    · change w.metrics.eventsCommitted+w.buf.length+w.metrics.eventsDropped+0 = _
      omega
    · exact (congrArg (· + w.buf.length) h.committed).trans (List.length_append ..).symm
  next =>
    refine ⟨?_,?_,h.committed,rfl⟩
    · rw [List.append_nil]
      exact ((List.sublist_append_left _ _).map _).trans h.ordered
    · change w.metrics.eventsCommitted+(w.metrics.eventsDropped+w.buf.length)+0 = _
      omega

theorem Holds.receive (h : w.Holds received) (batchSize : ℕ) (m : Ticketed Event)
    (commit : Except ColdError Unit) : (w.receive batchSize m commit).Holds (received ++ [m.val]) := by
  unfold ColdWriter.receive
  split
  · exact (h.push m).flush commit
  · exact h.push m

theorem Holds.flushRest (h : w.Holds received) (commit : Except ColdError Unit) :
    (w.flushRest commit).Holds received := by
  unfold ColdWriter.flushRest
  split
  · exact h
  · exact h.flush commit

/-- Nothing was lost and nothing waits, so all is committed. -/
theorem Holds.committed_eq (h : w.Holds received) (hdropped : w.metrics.eventsDropped = 0)
    (hpending : w.metrics.pendingBuffer = 0) : w.committed.map Ticketed.val = received := by
  have hbuf : w.buf = [] := List.length_eq_zero_iff.mp (h.pending.symm.trans hpending)
  have hordered := h.ordered
  rw [hbuf,List.append_nil] at hordered
  refine hordered.eq_of_length ?_
  rw [List.length_map,← h.committed,← h.counted,hdropped,hpending]
  rfl

end ColdWriter

namespace EmbedderTask

variable {t t' : EmbedderTask} {committed received offered : List Event} {embedder : Embedder}
  {commit : Except String Unit}

/-- A turn of the loop with an event. -/
def receive (batchSize : ℕ) (embedder : Embedder) (t : EmbedderTask) (event : Event)
    (commit : Except String Unit) : EmbedderTask :=
  let t := t.push event
  if batchSize ≤ t.buf.length then t.flush embedder commit else t

/-- A turn of the loop at a tick. -/
def flushRest (embedder : Embedder) (t : EmbedderTask) (commit : Except String Unit) : EmbedderTask :=
  if t.buf.isEmpty then t else t.flush embedder commit

section Loop

variable {config : EmbedderConfig} {l : BatchLoop Event Event EmbedderTask (Except String Unit)}

theorem run_onEvent (event : Event) (commit : Except String Unit) :
    ((run config embedder).onEvent l event commit).task =
      l.task.receive config.batchSize embedder event commit := by
  unfold BatchTask.onEvent receive
  exact apply_ite BatchLoop.task _ _ _

theorem run_flushRest (commit : Except String Unit) :
    ((run config embedder).flushRest l commit).task = l.task.flushRest embedder commit := by
  unfold BatchTask.flushRest flushRest
  exact apply_ite BatchLoop.task _ _ _

end Loop

/-- The two ends of a flush. -/
theorem flush_cases (embedder : Embedder) (t : EmbedderTask) (commit : Except String Unit) :
    let records := t.buf.map (buildRecord embedder)
    let metrics := { t.metrics with
      eventsTruncated := t.metrics.eventsTruncated+records.countP fun r : VectorRecord => r.truncated
      pendingBuffer := 0 }
    t.flush embedder commit = ⟨[],t.index.append records,{ metrics with
      batchesCommitted := metrics.batchesCommitted+1
      eventsEmbedded := metrics.eventsEmbedded+t.buf.length }⟩ ∨
    t.flush embedder commit = ⟨[],t.index,{ metrics with commitErrors := metrics.commitErrors+1 }⟩ := by
  intro records metrics
  unfold EmbedderTask.flush
  cases happend : t.index.tryAppend commit records with
  | error e => exact Or.inr (by simp only [records] at happend; simp only [happend]; rfl)
  | ok index =>
    have hindex : index = t.index.append records := by
      unfold VectorIndex.tryAppend at happend
      split at happend
      next hempty =>
        rw [List.isEmpty_iff.mp hempty]
        exact (Except.ok.inj happend).symm
      next =>
        cases commit with
        | error e => cases happend
        | ok u => exact (Except.ok.inj happend).symm
    refine Or.inl ?_
    simp only [records] at happend hindex
    simp only [happend,List.length_map]
    rw [hindex]

/-- Of the events that were at hand a turn committed all or none. -/
def Commits (embedder : Embedder) (t t' : EmbedderTask) (offered : List Event) : Prop :=
  ∃ batch, (batch = offered ∨ batch = []) ∧
    t'.metrics.eventsEmbedded = t.metrics.eventsEmbedded+batch.length ∧
    t'.index = t.index.append (batch.map (buildRecord embedder))

theorem Commits.refl (t : EmbedderTask) (offered : List Event) : Commits embedder t t offered :=
  ⟨[],Or.inr rfl,rfl,rfl⟩

/-- The batch of `Commits`. -/
def newly (t t' : EmbedderTask) (offered : List Event) : List Event :=
  offered.take (t'.metrics.eventsEmbedded-t.metrics.eventsEmbedded)

theorem newly_of_count {batch : List Event} (hbatch : batch = offered ∨ batch = [])
    (hcount : t'.metrics.eventsEmbedded = t.metrics.eventsEmbedded+batch.length) :
    t.newly t' offered = batch := by
  rw [EmbedderTask.newly,hcount,Nat.add_sub_cancel_left]
  rcases hbatch with rfl | rfl
  · exact List.take_length
  · exact List.take_zero

theorem Commits.newly (h : Commits embedder t t' offered) :
    t'.index = t.index.append ((t.newly t' offered).map (buildRecord embedder)) := by
  obtain ⟨batch,hbatch,hcount,hindex⟩ := h
  rw [newly_of_count hbatch hcount,hindex]

theorem commits_flush (embedder : Embedder) (t : EmbedderTask) (commit : Except String Unit) :
    Commits embedder t (t.flush embedder commit) t.buf := by
  rcases t.flush_cases embedder commit with h | h
  · rw [h]
    exact ⟨t.buf,Or.inl rfl,rfl,rfl⟩
  · rw [h]
    exact ⟨[],Or.inr rfl,rfl,rfl⟩

theorem commits_receive (batchSize : ℕ) (embedder : Embedder) (t : EmbedderTask) (event : Event)
    (commit : Except String Unit) :
    Commits embedder t (t.receive batchSize embedder event commit) (t.buf ++ [event]) := by
  unfold EmbedderTask.receive
  dsimp only
  split
  · exact commits_flush embedder (t.push event) commit
  · exact ⟨[],Or.inr rfl,rfl,rfl⟩

theorem commits_flushRest (embedder : Embedder) (t : EmbedderTask) (commit : Except String Unit) :
    Commits embedder t (t.flushRest embedder commit) t.buf := by
  unfold EmbedderTask.flushRest
  split
  · exact .refl t t.buf
  · exact commits_flush embedder t commit

/-- What the task has and what it received. A failed batch is gone; without one nothing is. -/
structure Holds (embedder : Embedder) (t : EmbedderTask) (committed received : List Event) : Prop where
  ordered : (committed ++ t.buf).Sublist received
  whole : t.metrics.commitErrors = 0 → committed ++ t.buf = received
  counted : t.metrics.eventsEmbedded = committed.length
  truncated : t.metrics.commitErrors = 0 →
    t.metrics.eventsTruncated = committed.countP fun e => (buildRecord embedder e).truncated
  pending : t.metrics.pendingBuffer = t.buf.length

theorem Holds.new (index : VectorIndex) : (EmbedderTask.new index).Holds embedder [] [] :=
  ⟨List.Sublist.refl _,fun _ => rfl,rfl,fun _ => rfl,rfl⟩

theorem Holds.push (h : t.Holds embedder committed received) (event : Event) :
    (t.push event).Holds embedder committed (received ++ [event]) where
  ordered := by
    change (committed ++ (t.buf ++ [event])).Sublist _
    rw [← List.append_assoc]
    exact h.ordered.append (.refl _)
  whole herrors := by
    change committed ++ (t.buf ++ [event]) = _
    rw [← List.append_assoc,h.whole herrors]
  counted := h.counted
  truncated := h.truncated
  pending := (@List.length_append _ t.buf [event]).symm

theorem Holds.flush (h : t.Holds embedder committed received) (commit : Except String Unit) :
    (t.flush embedder commit).Holds embedder
      (committed ++ t.newly (t.flush embedder commit) t.buf) received := by
  have hcases := t.flush_cases embedder commit
  dsimp only at hcases
  generalize t.flush embedder commit = t' at hcases ⊢
  rcases hcases with ht' | ht'
  · have hnewly : t.newly t' t.buf = t.buf := newly_of_count (Or.inl rfl) (by rw [ht'])
    rw [hnewly,ht']
    refine ⟨?_,?_,?_,?_,rfl⟩
    · rw [List.append_nil]
      exact h.ordered
    · intro herrors
      rw [List.append_nil]
      exact h.whole herrors
    · exact (congrArg (· + t.buf.length) h.counted).trans (List.length_append ..).symm
    · intro herrors
      rw [List.countP_append]
      refine congrArg₂ (· + ·) (h.truncated herrors) ?_
      rw [List.countP_map]
      rfl
  · have hnewly : t.newly t' t.buf = [] := newly_of_count (Or.inr rfl) (by rw [ht']; rfl)
    rw [hnewly,ht',List.append_nil]
    refine ⟨?_,?_,h.counted,?_,rfl⟩
    · rw [List.append_nil]
      exact (List.sublist_append_left _ _).trans h.ordered
    · exact fun herrors => absurd herrors (Nat.succ_ne_zero _)
    · exact fun herrors => absurd herrors (Nat.succ_ne_zero _)

theorem Holds.receive (h : t.Holds embedder committed received) (batchSize : ℕ) (event : Event)
    (commit : Except String Unit) : (t.receive batchSize embedder event commit).Holds embedder
      (committed ++ t.newly (t.receive batchSize embedder event commit) (t.buf ++ [event]))
      (received ++ [event]) := by
  unfold EmbedderTask.receive
  dsimp only
  split
  · exact (h.push event).flush commit
  · have hnewly : t.newly (t.push event) (t.buf ++ [event]) = [] := newly_of_count (Or.inr rfl) rfl
    rw [hnewly,List.append_nil]
    exact h.push event

theorem Holds.flushRest (h : t.Holds embedder committed received) (commit : Except String Unit) :
    (t.flushRest embedder commit).Holds embedder
      (committed ++ t.newly (t.flushRest embedder commit) t.buf) received := by
  unfold EmbedderTask.flushRest
  split
  · have hnewly : t.newly t t.buf = [] := newly_of_count (Or.inr rfl) rfl
    rw [hnewly,List.append_nil]
    exact h
  · exact h.flush commit

/-- Nothing was lost and nothing waits, so all is committed. -/
theorem Holds.committed_eq (h : t.Holds embedder committed received)
    (herrors : t.metrics.commitErrors = 0) (hpending : t.metrics.pendingBuffer = 0) :
    committed = received := by
  have hbuf : t.buf = [] := List.length_eq_zero_iff.mp (h.pending.symm.trans hpending)
  have hwhole := h.whole herrors
  rwa [hbuf,List.append_nil] at hwhole

end EmbedderTask

end Percept
