import Percept.Lib.Channel
import Percept.Lib.Runs

/-! A task that collects what it receives from a channel, and flushes what it has collected when that
is enough, at a tick, and at the end of the channel. The flush is the task's own affair and may fail;
nothing is left in the buffer after it. -/

/-- What the task does with its state. A flush gets an answer from outside. -/
structure BatchTask (α β σ ω : Type*) where
  batchSize : ℕ
  convert : α → β
  buf : σ → List β
  push : σ → α → σ
  flush : σ → ω → σ
  buf_push : ∀ s a, buf (push s a) = buf s ++ [convert a]
  buf_flush : ∀ s w, buf (flush s w) = []

/-- The task in its loop. The batches that it flushed are kept, with the answers that they got. -/
structure BatchLoop (α β σ ω : Type*) where
  rx : Channel α
  task : σ
  flushed : List (List β × ω)
  exited : Bool

/-- Whatever happens next: something is sent, the last sender goes, the loop is woken. -/
inductive BatchAction (α ω : Type*)
  | send (a : α)
  | close
  | recv (answer : ω)
  | tick (answer : ω)

/-- The answer to a flush in this step. -/
def BatchAction.answer? {α ω : Type*} : BatchAction α ω → Option ω
  | .send _ | .close => none
  | .recv answer | .tick answer => some answer

namespace BatchTask

variable {α β σ ω : Type*} (t : BatchTask α β σ ω)

def start (task : σ) (capacity : ℕ) : BatchLoop α β σ ω := ⟨.new capacity,task,[],false⟩

/-- The task flushes. -/
def flushAll (l : BatchLoop α β σ ω) (answer : ω) : BatchLoop α β σ ω :=
  { l with
    task := t.flush l.task answer
    flushed := l.flushed ++ [(t.buf l.task,answer)] }

/-- `if !buf.is_empty() { flush }`. -/
def flushRest (l : BatchLoop α β σ ω) (answer : ω) : BatchLoop α β σ ω :=
  if (t.buf l.task).isEmpty then l else t.flushAll l answer

/-- The oldest message goes from the channel into the buffer. -/
def accept (l : BatchLoop α β σ ω) (a : α) : BatchLoop α β σ ω :=
  { l with rx := l.rx.recv,task := t.push l.task a }

/-- `buf.push(event)`, then `if buf.len() >= batch_size { flush }`. -/
def onEvent (l : BatchLoop α β σ ω) (a : α) (answer : ω) : BatchLoop α β σ ω :=
  if t.batchSize ≤ (t.buf (t.accept l a).task).length then t.flushAll (t.accept l a) answer
  else t.accept l a

/-- The `select!` loop. A channel that is empty and open keeps `recv` waiting; one that is empty and
closed ends the loop. -/
def step (l : BatchLoop α β σ ω) : BatchAction α ω → BatchLoop α β σ ω
  | .send a => { l with rx := l.rx.apply (.trySend a) }
  | .close => { l with rx := l.rx.close }
  | .recv answer =>
    if l.exited then l
    else match l.rx.queue with
      | a::_ => t.onEvent l a answer
      | [] => if l.rx.closed then { t.flushRest l answer with exited := true } else l
  | .tick answer => if l.exited then l else t.flushRest l answer

/-- The messages are in the flushed batches and the buffer, each once and in order. -/
structure InOrder (l : BatchLoop α β σ ω) : Prop where
  order : l.flushed.flatMap Prod.fst ++ t.buf l.task = l.rx.received.map t.convert
  sizes : ∀ b ∈ l.flushed, 0 < b.1.length ∧ b.1.length ≤ t.batchSize

structure Kept (l : BatchLoop α β σ ω) : Prop extends t.InOrder l where
  short : (t.buf l.task).length < t.batchSize
  exit : l.exited = true → t.buf l.task = [] ∧ l.rx.closed = true ∧ l.rx.queue = []

variable {t} {l : BatchLoop α β σ ω}

theorem InOrder.flushAll (h : t.InOrder l) (hpos : 0 < (t.buf l.task).length)
    (hle : (t.buf l.task).length ≤ t.batchSize) (answer : ω) : t.InOrder (t.flushAll l answer) := by
  refine ⟨?_,fun b hb => ?_⟩
  · simp only [BatchTask.flushAll,List.flatMap_append,List.flatMap_singleton,t.buf_flush,List.append_nil]
    exact h.order
  · rcases List.mem_append.mp hb with hb | hb
    · exact h.sizes b hb
    · rw [List.mem_singleton.mp hb]
      exact ⟨hpos,hle⟩

theorem InOrder.accept (h : t.InOrder l) {a : α} {rest : List α} (hqueue : l.rx.queue = a::rest) :
    t.InOrder (t.accept l a) := by
  refine ⟨?_,h.sizes⟩
  simp only [BatchTask.accept,t.buf_push,Channel.received_recv hqueue,List.map_append,List.map_singleton]
  rw [← List.append_assoc,h.order]

theorem Kept.start {task : σ} (hbuf : t.buf task = []) (hsize : 0 < t.batchSize) (capacity : ℕ) :
    t.Kept (start task capacity) := by
  refine ⟨⟨?_,fun b hb => absurd hb List.not_mem_nil⟩,?_,fun h => Bool.noConfusion h⟩
  · simp [BatchTask.start,Channel.new,hbuf]
  · simpa [BatchTask.start,hbuf] using hsize

theorem Kept.flushRest (h : t.Kept l) (answer : ω) :
    t.Kept (t.flushRest l answer) ∧ t.buf (t.flushRest l answer).task = [] := by
  unfold BatchTask.flushRest
  split
  next hempty => exact ⟨h,by simpa using hempty⟩
  next hne =>
    have hpos : 0 < (t.buf l.task).length := by simpa [List.length_pos_iff] using hne
    have hbuf : t.buf (t.flushAll l answer).task = [] := t.buf_flush _ _
    refine ⟨⟨h.toInOrder.flushAll hpos h.short.le answer,?_,fun hexit => ?_⟩,hbuf⟩
    · rw [hbuf]
      exact hpos.trans h.short
    · exact ⟨hbuf,(h.exit hexit).2⟩

theorem Kept.onEvent (h : t.Kept l) (hopen : l.exited = false) {a : α} {rest : List α}
    (hqueue : l.rx.queue = a::rest) (answer : ω) : t.Kept (t.onEvent l a answer) := by
  have hshort := h.short
  have haccept := h.toInOrder.accept hqueue
  have hlength : (t.buf (t.accept l a).task).length = (t.buf l.task).length+1 := by
    simp [BatchTask.accept,t.buf_push]
  unfold BatchTask.onEvent
  split
  next hfull =>
    have hbuf : t.buf (t.flushAll (t.accept l a) answer).task = [] := t.buf_flush _ _
    refine ⟨haccept.flushAll (by omega) (by omega) answer,?_,fun hexit => ?_⟩
    · rw [hbuf]
      exact (Nat.zero_le _).trans_lt hshort
    · rw [show (t.flushAll (t.accept l a) answer).exited = l.exited from rfl,hopen] at hexit
      exact Bool.noConfusion hexit
  next hroom =>
    refine ⟨haccept,not_le.mp hroom,fun hexit => ?_⟩
    rw [show (t.accept l a).exited = l.exited from rfl,hopen] at hexit
    exact Bool.noConfusion hexit

theorem Kept.step (h : t.Kept l) (a : BatchAction α ω) : t.Kept (t.step l a) := by
  cases a with
  | send a =>
    have hreceived : (l.rx.apply (.trySend a)).received = l.rx.received := by
      simp only [Channel.apply]
      split
      next hc => exact Channel.received_of_trySend hc
      next => rfl
    refine ⟨⟨h.order.trans (congrArg _ hreceived.symm),h.sizes⟩,h.short,fun hexit => ?_⟩
    -- the channel is closed then, so the send fails
    obtain ⟨hbuf,hclosed,hqueue⟩ := h.exit hexit
    have hfail : l.rx.apply (.trySend a) = l.rx := by
      simp [Channel.apply,Channel.trySend,hclosed]
    exact ⟨hbuf,by rwa [BatchTask.step,hfail],by rwa [BatchTask.step,hfail]⟩
  | close =>
    refine ⟨⟨h.order,h.sizes⟩,h.short,fun hexit => ?_⟩
    obtain ⟨hbuf,_,hqueue⟩ := h.exit hexit
    exact ⟨hbuf,rfl,hqueue⟩
  | recv answer =>
    simp only [BatchTask.step]
    split
    next => exact h
    next hopen =>
      split
      next a rest hqueue => exact h.onEvent (by simpa using hopen) hqueue answer
      next hqueue =>
        split
        next hclosed =>
          obtain ⟨hkept,hbuf⟩ := h.flushRest answer
          have hrx : (t.flushRest l answer).rx = l.rx := by
            unfold BatchTask.flushRest
            split <;> rfl
          exact ⟨⟨hkept.order,hkept.sizes⟩,hkept.short,fun _ => ⟨hbuf,hrx ▸ hclosed,hrx ▸ hqueue⟩⟩
        next => exact h
  | tick answer =>
    simp only [BatchTask.step]
    split
    next => exact h
    next => exact (h.flushRest answer).1

/-- In every state of every run the messages are in order, and the loop exits only once all is
flushed. -/
theorem always_kept (task : σ) (hbuf : t.buf task = []) (hsize : 0 < t.batchSize) (capacity : ℕ)
    (actions : List (BatchAction α ω)) :
    Runs.Always t.step t.Kept (start task capacity) actions :=
  Runs.always_of_step (fun a _ _ h => h.step a) (Kept.start hbuf hsize capacity)

theorem flushRest_task (l : BatchLoop α β σ ω) (answer : ω) :
    (t.flushRest l answer).task = l.task ∧ (t.flushRest l answer).flushed = l.flushed ∨
      (t.flushRest l answer).task = t.flush l.task answer ∧
        (t.flushRest l answer).flushed = l.flushed ++ [(t.buf l.task,answer)] := by
  unfold BatchTask.flushRest
  split
  · exact Or.inl ⟨rfl,rfl⟩
  · exact Or.inr ⟨rfl,rfl⟩

/-- What one step does to the task: it takes one message at most, and then flushes at most once. -/
theorem step_task (l : BatchLoop α β σ ω) (a : BatchAction α ω) :
    ∃ s, (s = l.task ∨ ∃ x, s = t.push l.task x) ∧
      ((t.step l a).task = s ∧ (t.step l a).flushed = l.flushed ∨
        ∃ answer, a.answer? = some answer ∧ (t.step l a).task = t.flush s answer ∧
          (t.step l a).flushed = l.flushed ++ [(t.buf s,answer)]) := by
  have hrest := fun answer => t.flushRest_task l answer
  cases a with
  | send x => exact ⟨l.task,Or.inl rfl,Or.inl ⟨rfl,rfl⟩⟩
  | close => exact ⟨l.task,Or.inl rfl,Or.inl ⟨rfl,rfl⟩⟩
  | recv answer =>
    simp only [BatchTask.step]
    split
    next => exact ⟨l.task,Or.inl rfl,Or.inl ⟨rfl,rfl⟩⟩
    next =>
      split
      next x rest hqueue =>
        refine ⟨t.push l.task x,Or.inr ⟨x,rfl⟩,?_⟩
        unfold BatchTask.onEvent
        split
        · exact Or.inr ⟨answer,rfl,rfl,rfl⟩
        · exact Or.inl ⟨rfl,rfl⟩
      next =>
        split
        next => exact ⟨l.task,Or.inl rfl,(hrest answer).imp id fun h => ⟨answer,rfl,h⟩⟩
        next => exact ⟨l.task,Or.inl rfl,Or.inl ⟨rfl,rfl⟩⟩
  | tick answer =>
    simp only [BatchTask.step]
    split
    next => exact ⟨l.task,Or.inl rfl,Or.inl ⟨rfl,rfl⟩⟩
    next => exact ⟨l.task,Or.inl rfl,(hrest answer).imp id fun h => ⟨answer,rfl,h⟩⟩

/-- What neither a message nor a flush with this answer changes. -/
theorem step_frame {τ : Type*} {f : σ → τ} (hpush : ∀ s x, f (t.push s x) = f s) {a : BatchAction α ω}
    (hflush : ∀ answer, a.answer? = some answer → ∀ s, f (t.flush s answer) = f s) :
    f (t.step l a).task = f l.task := by
  obtain ⟨s,hs,hstep⟩ := t.step_task l a
  have hfs : f s = f l.task := by
    rcases hs with rfl | ⟨x,rfl⟩
    · rfl
    · exact hpush _ x
  rcases hstep with ⟨htask,_⟩ | ⟨answer,hanswer,htask,_⟩
  · rw [htask,hfs]
  · rw [htask,hflush answer hanswer,hfs]

section Folds

variable {τ : Type*} {f : σ → τ} {g : τ → List β → ω → τ}

/-- A part of the state that only flushes change. -/
structure Folds (t : BatchTask α β σ ω) (f : σ → τ) (g : τ → List β → ω → τ) : Prop where
  push : ∀ s x, f (t.push s x) = f s
  flush : ∀ s answer, f (t.flush s answer) = g (f s) (t.buf s) answer

theorem Folds.step (h : Folds t f g) {y : τ}
    (hl : f l.task = l.flushed.foldl (fun y b => g y b.1 b.2) y) (a : BatchAction α ω) :
    f (t.step l a).task = (t.step l a).flushed.foldl (fun y b => g y b.1 b.2) y := by
  obtain ⟨s,hs,hstep⟩ := t.step_task l a
  have hfs : f s = l.flushed.foldl (fun y b => g y b.1 b.2) y := by
    rcases hs with rfl | ⟨x,rfl⟩
    · exact hl
    · exact (h.push _ x).trans hl
  rcases hstep with ⟨htask,hflushed⟩ | ⟨answer,_,htask,hflushed⟩
  · rw [htask,hfs,hflushed]
  · rw [htask,h.flush,hfs,hflushed,List.foldl_concat]

/-- In every state of every run it is what the flushed batches make of it, one after the other. -/
theorem Folds.always (h : Folds t f g) (task : σ) (capacity : ℕ) (actions : List (BatchAction α ω)) :
    Runs.Always t.step (fun l => f l.task = l.flushed.foldl (fun y b => g y b.1 b.2) (f task))
      (start task capacity) actions :=
  Runs.always_of_step (fun a _ _ hl => h.step hl a) rfl

/-- The sum over the batches flushed so far. -/
def total (g : List β → ω → ℕ) (l : BatchLoop α β σ ω) : ℕ :=
  (l.flushed.map fun b => g b.1 b.2).sum

theorem foldl_add (g : List β → ω → ℕ) (n : ℕ) (flushed : List (List β × ω)) :
    flushed.foldl (fun n b => n+g b.1 b.2) n = n+(flushed.map fun b => g b.1 b.2).sum := by
  induction flushed generalizing n with
  | nil => rfl
  | cons b flushed ih => rw [List.foldl_cons,ih,List.map_cons,List.sum_cons,Nat.add_assoc]

/-- A number that only flushes change, each by adding to it. -/
theorem Folds.always_total {f : σ → ℕ} {g : List β → ω → ℕ}
    (h : Folds t f fun n batch answer => n+g batch answer) (task : σ) (capacity : ℕ)
    (actions : List (BatchAction α ω)) :
    Runs.Always t.step (fun l => f l.task = f task+total g l) (start task capacity) actions :=
  (h.always task capacity actions).mono fun l hl => hl.trans (foldl_add g _ l.flushed)

/-- What was received is counted by the batches and the buffer. -/
theorem InOrder.length_received (h : t.InOrder l) :
    total (fun batch _ => batch.length) l+(t.buf l.task).length = l.rx.received.length := by
  have hlength := congrArg List.length h.order
  simpa [total,List.length_flatMap] using hlength

end Folds

end BatchTask
