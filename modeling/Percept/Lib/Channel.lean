import Mathlib

/-! A bounded first-in first-out channel with many senders and one receiver. What was
received is kept, so that everything ever sent can be spoken of. Whether a send succeeds
depends on the fill level alone. -/

inductive TrySendError
  | full | closed
  deriving DecidableEq

structure Channel (α : Type*) where
  capacity : ℕ
  received : List α
  queue : List α
  closed : Bool
  bounded : queue.length ≤ capacity

namespace Channel

variable {α β : Type*}

def new (capacity : ℕ) : Channel α := ⟨capacity,[],[],false,Nat.zero_le _⟩

/-- Every message sent so far, in order. -/
def sent (c : Channel α) : List α := c.received ++ c.queue

/-- The receiver is open and a slot is free. -/
def hasRoom (c : Channel α) : Bool := !c.closed && decide (c.queue.length < c.capacity)

/-- A closed channel is reported before a full one. -/
def trySend (c : Channel α) (a : α) : Except TrySendError (Channel α) :=
  if c.closed then .error .closed
  else if h : c.queue.length < c.capacity then
    .ok { c with queue := c.queue ++ [a], bounded := by simpa using h }
  else .error .full

/-- The receiver takes the oldest message, if there is one. -/
def recv (c : Channel α) : Channel α :=
  match h : c.queue with
  | [] => c
  | a::queue => { c with
      received := c.received ++ [a]
      queue := queue
      bounded := by have hb := c.bounded; simp only [h,List.length_cons] at hb; omega }

def close (c : Channel α) : Channel α := { c with closed := true }

theorem trySend_ok {c : Channel α} (h : c.hasRoom = true) (a : α) :
    ∃ c', c.trySend a = .ok c' ∧ c'.sent = c.sent ++ [a] := by
  obtain ⟨hopen,hlt⟩ : c.closed = false ∧ c.queue.length < c.capacity := by
    simpa [hasRoom] using h
  exact ⟨_,by simp only [trySend,hopen,hlt,Bool.false_eq_true,if_false,dif_pos]; rfl,
    by simp [sent]⟩

theorem trySend_error {c : Channel α} (h : c.hasRoom = false) (a : α) :
    c.trySend a = .error (if c.closed then .closed else .full) := by
  have h' : c.closed = false → ¬ c.queue.length < c.capacity := by
    simpa [hasRoom] using h
  unfold trySend
  cases hc : c.closed with
  | true => rfl
  | false => simp [h' hc]

/-- A send that succeeds appends to the queue and changes nothing else. -/
theorem eq_of_trySend {c c' : Channel α} {a : α} (h : c.trySend a = .ok c') :
    c.hasRoom = true ∧ ∃ hb, c' = { c with queue := c.queue ++ [a],bounded := hb } := by
  unfold trySend at h
  split at h
  next => cases h
  next hopen =>
    split at h
    next hlt =>
      refine ⟨?_,_,(Except.ok.inj h).symm⟩
      simpa [hasRoom,hlt] using hopen
    next => cases h

theorem sent_of_trySend {c c' : Channel α} {a : α} (h : c.trySend a = .ok c') :
    c'.sent = c.sent ++ [a] := by
  obtain ⟨_,_,rfl⟩ := eq_of_trySend h
  simp [sent]

theorem queue_of_trySend {c c' : Channel α} {a : α} (h : c.trySend a = .ok c') :
    c'.queue = c.queue ++ [a] := by
  obtain ⟨_,_,rfl⟩ := eq_of_trySend h
  rfl

theorem closed_of_trySend {c c' : Channel α} {a : α} (h : c.trySend a = .ok c') :
    c'.closed = c.closed := by
  obtain ⟨_,_,rfl⟩ := eq_of_trySend h
  rfl

theorem received_of_trySend {c c' : Channel α} {a : α} (h : c.trySend a = .ok c') :
    c'.received = c.received := by
  obtain ⟨_,_,rfl⟩ := eq_of_trySend h
  rfl

theorem hasRoom_of_trySend {c c' : Channel α} {a : α} (h : c.trySend a = .ok c') :
    c.hasRoom = true := (eq_of_trySend h).1

@[simp] theorem sent_recv (c : Channel α) : c.recv.sent = c.sent := by
  unfold recv
  split
  next => rfl
  next a queue h => simp [sent,h]

@[simp] theorem queue_recv (c : Channel α) : c.recv.queue = c.queue.tail := by
  unfold recv
  split
  next h => simp [h]
  next h => simp [h]

theorem received_recv {c : Channel α} {a : α} {rest : List α} (h : c.queue = a::rest) :
    c.recv.received = c.received ++ [a] := by
  unfold recv
  split
  next hnil => simp [h] at hnil
  next b queue hcons =>
    rw [h] at hcons
    rw [(List.cons.inj hcons).1]

@[simp] theorem closed_recv (c : Channel α) : c.recv.closed = c.closed := by
  unfold recv
  split <;> rfl

@[simp] theorem sent_close (c : Channel α) : c.close.sent = c.sent := rfl

/-- The channel of the images of the messages. -/
def map (f : α → β) (c : Channel α) : Channel β :=
  ⟨c.capacity,c.received.map f,c.queue.map f,c.closed,by simpa using c.bounded⟩

theorem trySend_map (f : α → β) (c : Channel α) (a : α) :
    (c.map f).trySend (f a) = (c.trySend a).map fun c => c.map f := by
  unfold trySend
  by_cases hclosed : c.closed = true
  · simp [map,hclosed,Except.map]
  · by_cases hlt : c.queue.length < c.capacity
    · simp [map,hclosed,hlt,Except.map]
    · simp [map,hclosed,hlt,Except.map]

/-- What the other ends of the channel do between two sends. -/
inductive Op (α : Type*)
  | trySend (a : α) | recv | close

def apply (c : Channel α) : Op α → Channel α
  | .trySend a => match c.trySend a with
    | .ok c' => c'
    | .error _ => c
  | .recv => c.recv
  | .close => c.close

@[simp] theorem received_apply_trySend (c : Channel α) (a : α) :
    (c.apply (.trySend a)).received = c.received := by
  simp only [apply]
  split
  next hc => exact received_of_trySend hc
  next => rfl

/-- A send that fails changes nothing. -/
theorem queue_apply_trySend (c : Channel α) (a : α) :
    (c.apply (.trySend a)).queue = if c.hasRoom then c.queue ++ [a] else c.queue := by
  cases hroom : c.hasRoom with
  | true =>
    obtain ⟨c',hc',_⟩ := trySend_ok hroom a
    simp [apply,hc',queue_of_trySend hc']
  | false => simp [apply,trySend_error hroom a]

def run (c : Channel α) (ops : List (Op α)) : Channel α := ops.foldl apply c

/-- A class of messages that no operation sends. -/
theorem filter_sent_run {p : α → Bool} {ops : List (Op α)}
    (hops : ∀ a, .trySend a ∈ ops → p a = false) (c : Channel α) :
    (c.run ops).sent.filter p = c.sent.filter p := by
  induction ops generalizing c with
  | nil => rfl
  | cons op ops ih =>
    have hrest : ∀ a, .trySend a ∈ ops → p a = false := fun a ha => hops a (List.mem_cons_of_mem _ ha)
    refine (ih hrest (c.apply op)).trans ?_
    cases op with
    | trySend a =>
      simp only [apply]
      split
      next c' hc' => simp [sent_of_trySend hc',hops a List.mem_cons_self]
      next => rfl
    | recv => simp [apply]
    | close => simp [apply]

/-- Fill level: all that decides whether a send succeeds. -/
structure Level where
  capacity : ℕ
  fill : ℕ
  closed : Bool
  deriving DecidableEq

def level (c : Channel α) : Level := ⟨c.capacity,c.queue.length,c.closed⟩

namespace Level

def hasRoom (l : Level) : Bool := !l.closed && decide (l.fill < l.capacity)

def push (l : Level) : Level := { l with fill := l.fill+1 }

def apply (l : Level) : Op α → Level
  | .trySend _ => if l.hasRoom then l.push else l
  | .recv => { l with fill := l.fill-1 }
  | .close => { l with closed := true }

def run (l : Level) (ops : List (Op α)) : Level := ops.foldl apply l

/-- Room at every one of several sends in a row, with other operations before each. -/
def roomForAll : List (List (Op α)) → Level → Bool
  | [], _ => true
  | ops::rest, l => (l.run ops).hasRoom && roomForAll rest (l.run ops).push

end Level

@[simp] theorem hasRoom_level (c : Channel α) : c.level.hasRoom = c.hasRoom := rfl

theorem level_of_trySend {c c' : Channel α} {a : α} (h : c.trySend a = .ok c') :
    c'.level = c.level.push := by
  obtain ⟨_,_,rfl⟩ := eq_of_trySend h
  simp [level,Level.push]

theorem level_apply (c : Channel α) (op : Op α) : (c.apply op).level = c.level.apply op := by
  cases op with
  | trySend a =>
    by_cases hroom : c.hasRoom = true
    · obtain ⟨c',hc',_⟩ := trySend_ok hroom a
      simp [apply,Level.apply,hc',hroom,level_of_trySend hc']
    · have hfull := trySend_error (by simpa using hroom) a
      simp [apply,Level.apply,hfull,hroom]
  | recv =>
    simp only [apply,Level.apply,recv]
    split
    next h => simp [level,h]
    next h => simp [level,h]
  | close => rfl

theorem level_run (c : Channel α) (ops : List (Op α)) : (c.run ops).level = c.level.run ops := by
  induction ops generalizing c with
  | nil => rfl
  | cons op ops ih =>
    have h := ih (c.apply op)
    rw [level_apply] at h
    exact h

end Channel
