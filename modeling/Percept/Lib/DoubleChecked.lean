import Mathlib

/-! Threads that work on shared data behind readers-writer locks. A section looks its entry up under the
read lock and works on it there. Where there is none it lets the lock go, takes the write lock, inserts the
entry, unless another thread has done that meanwhile, and works on it under that lock. Nobody waits for a
lock while he has one, no effect misses its entry, and what is counted does not depend on the schedule. -/

/-- `κ` are the sections, `ε` the effects that they have, `α` the atomic operations outside the locks. An
effect needs an entry, and an entry stays. -/
structure LockedData (σ Λ κ ε α : Type*) where
  lock : κ → Λ
  present : κ → σ → Bool
  insert : κ → σ → σ
  effects : κ → List ε
  apply : ε → σ → Option σ
  act : α → σ → σ
  present_insert : ∀ k x, present k (insert k x) = true
  insert_keeps : ∀ k k' x, present k x = true → present k (insert k' x) = true
  apply_keeps : ∀ k e x y, apply e x = some y → present k x = true → present k y = true
  act_keeps : ∀ k a x, present k x = true → present k (act a x) = true
  apply_present : ∀ k x, present k x = true → ∀ e ∈ effects k, (apply e x).isSome = true

namespace LockedData

inductive Task (κ α : Type*)
  | act (a : α) | enter (k : κ)

/-- Where a thread is in the first of its tasks. -/
inductive Phase (ε : Type*)
  | start | looking | found (todo : List ε) | missing | entering | entered (todo : List ε)

structure Thread (κ ε α : Type*) where
  phase : Phase ε
  tasks : List (Task κ α)

structure System (ι σ κ ε α : Type*) where
  shared : σ
  threads : ι → Thread κ ε α

variable {ι σ Λ κ ε α : Type*} (d : LockedData σ Λ κ ε α)

/-- The lock that a thread has, and whether it has it alone. -/
def held (t : Thread κ ε α) : Option (Λ × Bool) :=
  match t.phase,t.tasks with
  | .looking, .enter k::_ => some (d.lock k,false)
  | .found _, .enter k::_ => some (d.lock k,false)
  | .entering, .enter k::_ => some (d.lock k,true)
  | .entered _, .enter k::_ => some (d.lock k,true)
  | _, _ => none

/-- What a thread does next when it gets the lock that it asks for. -/
def turn (t : Thread κ ε α) (x : σ) : Option (Thread κ ε α × σ) :=
  match t.tasks with
  | [] => none
  | .act a::rest => some (⟨.start,rest⟩,d.act a x)
  | .enter k::rest => match t.phase with
    | .start => some (⟨.looking,t.tasks⟩,x)
    | .looking => if d.present k x then some (⟨.found (d.effects k),t.tasks⟩,x) else some (⟨.missing,t.tasks⟩,x)
    | .found [] => some (⟨.start,rest⟩,x)
    | .found (e::todo) => (d.apply e x).map fun y => (⟨.found todo,t.tasks⟩,y)
    | .missing => some (⟨.entering,t.tasks⟩,x)
    | .entering => some (⟨.entered (d.effects k),t.tasks⟩,d.insert k x)
    | .entered [] => some (⟨.start,rest⟩,x)
    | .entered (e::todo) => (d.apply e x).map fun y => (⟨.entered todo,t.tasks⟩,y)

/-- The cases of `turn`. -/
inductive Turn : Thread κ ε α → σ → Thread κ ε α → σ → Prop
  | act (phase : Phase ε) (a : α) (rest : List (Task κ α)) (x : σ) :
    Turn ⟨phase,.act a::rest⟩ x ⟨.start,rest⟩ (d.act a x)
  | read (k : κ) (rest : List (Task κ α)) (x : σ) : Turn ⟨.start,.enter k::rest⟩ x ⟨.looking,.enter k::rest⟩ x
  | hit (k : κ) (rest : List (Task κ α)) (x : σ) (hpresent : d.present k x = true) :
    Turn ⟨.looking,.enter k::rest⟩ x ⟨.found (d.effects k),.enter k::rest⟩ x
  | miss (k : κ) (rest : List (Task κ α)) (x : σ) : Turn ⟨.looking,.enter k::rest⟩ x ⟨.missing,.enter k::rest⟩ x
  | found (k : κ) (rest : List (Task κ α)) (e : ε) (todo : List ε) (x y : σ) (happly : d.apply e x = some y) :
    Turn ⟨.found (e::todo),.enter k::rest⟩ x ⟨.found todo,.enter k::rest⟩ y
  | unread (k : κ) (rest : List (Task κ α)) (x : σ) : Turn ⟨.found [],.enter k::rest⟩ x ⟨.start,rest⟩ x
  | write (k : κ) (rest : List (Task κ α)) (x : σ) : Turn ⟨.missing,.enter k::rest⟩ x ⟨.entering,.enter k::rest⟩ x
  | insert (k : κ) (rest : List (Task κ α)) (x : σ) :
    Turn ⟨.entering,.enter k::rest⟩ x ⟨.entered (d.effects k),.enter k::rest⟩ (d.insert k x)
  | entered (k : κ) (rest : List (Task κ α)) (e : ε) (todo : List ε) (x y : σ) (happly : d.apply e x = some y) :
    Turn ⟨.entered (e::todo),.enter k::rest⟩ x ⟨.entered todo,.enter k::rest⟩ y
  | unwrite (k : κ) (rest : List (Task κ α)) (x : σ) : Turn ⟨.entered [],.enter k::rest⟩ x ⟨.start,rest⟩ x

variable {d} {t t' u : Thread κ ε α} {x x' : σ}

theorem turn_cases (h : d.turn t x = some (t',x')) : d.Turn t x t' x' := by
  obtain ⟨phase,tasks⟩ := t
  unfold turn at h
  cases tasks with
  | nil => cases h
  | cons task rest =>
    cases task with
    | act a =>
      cases h
      exact .act phase a rest x
    | enter k =>
      cases phase with
      | start =>
        cases h
        exact .read k rest x
      | looking =>
        simp only at h
        split at h
        next hpresent =>
          cases h
          exact .hit k rest x hpresent
        next =>
          cases h
          exact .miss k rest x
      | missing =>
        cases h
        exact .write k rest x
      | entering =>
        cases h
        exact .insert k rest x
      | found todo =>
        cases todo with
        | nil =>
          cases h
          exact .unread k rest x
        | cons e todo =>
          obtain ⟨y,hy,heq⟩ := Option.map_eq_some_iff.mp h
          cases heq
          exact .found k rest e todo x x' hy
      | entered todo =>
        cases todo with
        | nil =>
          cases h
          exact .unwrite k rest x
        | cons e todo =>
          obtain ⟨y,hy,heq⟩ := Option.map_eq_some_iff.mp h
          cases heq
          exact .entered k rest e todo x x' hy

/-- The thread is in its code: a section that works on its entry has one, and works on what is left of it. -/
inductive Fit (d : LockedData σ Λ κ ε α) (x : σ) : Thread κ ε α → Prop
  | start (tasks : List (Task κ α)) : Fit d x ⟨.start,tasks⟩
  | looking (k : κ) (rest : List (Task κ α)) : Fit d x ⟨.looking,.enter k::rest⟩
  | missing (k : κ) (rest : List (Task κ α)) : Fit d x ⟨.missing,.enter k::rest⟩
  | entering (k : κ) (rest : List (Task κ α)) : Fit d x ⟨.entering,.enter k::rest⟩
  | found (k : κ) (rest : List (Task κ α)) (todo : List ε) (hpresent : d.present k x = true)
    (htodo : todo ⊆ d.effects k) : Fit d x ⟨.found todo,.enter k::rest⟩
  | entered (k : κ) (rest : List (Task κ α)) (todo : List ε) (hpresent : d.present k x = true)
    (htodo : todo ⊆ d.effects k) : Fit d x ⟨.entered todo,.enter k::rest⟩

theorem Turn.present (h : d.Turn t x t' x') {k : κ} (hk : d.present k x = true) : d.present k x' = true := by
  cases h with
  | act phase a rest x => exact d.act_keeps k a x hk
  | insert k' rest x => exact d.insert_keeps k k' x hk
  | found k' rest e todo x y happly => exact d.apply_keeps k e x x' happly hk
  | entered k' rest e todo x y happly => exact d.apply_keeps k e x x' happly hk
  | read | hit | miss | unread | write | unwrite => exact hk

theorem Fit.turn (h : Fit d x t) (hturn : d.Turn t x t' x') : Fit d x' t' := by
  cases hturn with
  | act phase a rest x => exact .start rest
  | read k rest x => exact .looking k rest
  | hit k rest x hpresent => exact .found k rest _ hpresent (List.Subset.refl _)
  | miss k rest x => exact .missing k rest
  | found k rest e todo x y happly =>
    cases h with
    | found k rest todo hpresent htodo =>
      exact .found k rest _ (d.apply_keeps k e x x' happly hpresent) (List.subset_of_cons_subset htodo)
  | unread k rest x => exact .start rest
  | write k rest x => exact .entering k rest
  | insert k rest x => exact .entered k rest _ (d.present_insert k x) (List.Subset.refl _)
  | entered k rest e todo x y happly =>
    cases h with
    | entered k rest todo hpresent htodo =>
      exact .entered k rest _ (d.apply_keeps k e x x' happly hpresent) (List.subset_of_cons_subset htodo)
  | unwrite k rest x => exact .start rest

/-- What another thread does. -/
theorem Fit.other (h : Fit d x u) (hturn : d.Turn t x t' x') : Fit d x' u := by
  cases h with
  | start tasks => exact .start tasks
  | looking k rest => exact .looking k rest
  | missing k rest => exact .missing k rest
  | entering k rest => exact .entering k rest
  | found k rest todo hpresent htodo => exact .found k rest todo (hturn.present hpresent) htodo
  | entered k rest todo hpresent htodo => exact .entered k rest todo (hturn.present hpresent) htodo

/-- No thread is stuck in its own code. -/
theorem Fit.exists_turn (h : Fit d x t) (htasks : t.tasks ≠ []) : (d.turn t x).isSome = true := by
  cases h with
  | start tasks =>
    cases tasks with
    | nil => exact absurd rfl htasks
    | cons task rest => cases task <;> rfl
  | looking k rest =>
    simp only [LockedData.turn]
    split <;> rfl
  | missing | entering => rfl
  | found k rest todo hpresent htodo =>
    cases todo with
    | nil => rfl
    | cons e todo => simpa [LockedData.turn] using d.apply_present k x hpresent e (htodo List.mem_cons_self)
  | entered k rest todo hpresent htodo =>
    cases todo with
    | nil => rfl
    | cons e todo => simpa [LockedData.turn] using d.apply_present k x hpresent e (htodo List.mem_cons_self)

/-- How many turns a thread may still take. -/
def cost (d : LockedData σ Λ κ ε α) : Task κ α → ℕ
  | .act _ => 1
  | .enter k => (d.effects k).length+5

def costs (d : LockedData σ Λ κ ε α) (tasks : List (Task κ α)) : ℕ := (tasks.map d.cost).sum

def left (d : LockedData σ Λ κ ε α) (t : Thread κ ε α) : ℕ :=
  match t.phase,t.tasks with
  | .looking, .enter k::rest => (d.effects k).length+4+d.costs rest
  | .missing, .enter k::rest => (d.effects k).length+3+d.costs rest
  | .entering, .enter k::rest => (d.effects k).length+2+d.costs rest
  | .found todo, .enter _::rest => todo.length+1+d.costs rest
  | .entered todo, .enter _::rest => todo.length+1+d.costs rest
  | _, tasks => d.costs tasks

theorem costs_cons (task : Task κ α) (rest : List (Task κ α)) :
    d.costs (task::rest) = d.cost task+d.costs rest := by
  simp only [costs,List.map_cons,List.sum_cons]

theorem Turn.left_lt (h : d.Turn t x t' x') : d.left t' < d.left t := by
  cases h with
  | act phase a rest x =>
    have hleft : d.left ⟨phase,.act a::rest⟩ = 1+d.costs rest := by
      cases phase <;> exact d.costs_cons _ _
    rw [hleft]
    exact Nat.lt_one_add_iff.mpr le_rfl
  | read k rest x =>
    have hcosts : d.costs (.enter k::rest) = (d.effects k).length+5+d.costs rest := d.costs_cons _ _
    simp only [left,hcosts]
    omega
  | hit | miss | found | unread | write | insert | entered | unwrite =>
    simp only [left,List.length_cons]
    omega

section Counting

variable {A : Type*} [AddCommMonoid A] (read : σ → A) (gain : ε → A) (gainAct : α → A)

/-- A number that the effects and the atomic operations add to, and an insertion leaves. -/
structure Counts (d : LockedData σ Λ κ ε α) (read : σ → A) (gain : ε → A) (gainAct : α → A) : Prop where
  apply : ∀ e x y, d.apply e x = some y → read y = read x+gain e
  insert : ∀ k x, read (d.insert k x) = read x
  act : ∀ a x, read (d.act a x) = read x+gainAct a

/-- What a section adds to it. -/
def gains (d : LockedData σ Λ κ ε α) (gain : ε → A) (gainAct : α → A) : Task κ α → A
  | .act a => gainAct a
  | .enter k => ((d.effects k).map gain).sum

def allGains (d : LockedData σ Λ κ ε α) (gain : ε → A) (gainAct : α → A) (tasks : List (Task κ α)) : A :=
  (tasks.map (d.gains gain gainAct)).sum

/-- What a thread still adds to it. -/
def owed (d : LockedData σ Λ κ ε α) (gain : ε → A) (gainAct : α → A) (t : Thread κ ε α) : A :=
  match t.phase,t.tasks with
  | .found todo, .enter _::rest => (todo.map gain).sum+d.allGains gain gainAct rest
  | .entered todo, .enter _::rest => (todo.map gain).sum+d.allGains gain gainAct rest
  | _, tasks => d.allGains gain gainAct tasks

variable {read gain gainAct}

theorem allGains_cons (task : Task κ α) (rest : List (Task κ α)) :
    d.allGains gain gainAct (task::rest) = d.gains gain gainAct task+d.allGains gain gainAct rest := by
  simp only [allGains,List.map_cons,List.sum_cons]

theorem allGains_append (tasks rest : List (Task κ α)) :
    d.allGains gain gainAct (tasks ++ rest) = d.allGains gain gainAct tasks+d.allGains gain gainAct rest := by
  simp only [allGains,List.map_append,List.sum_append]

theorem Turn.owed (h : d.Turn t x t' x') (hcounts : d.Counts read gain gainAct) :
    read x'+d.owed gain gainAct t' = read x+d.owed gain gainAct t := by
  cases h with
  | act phase a rest x =>
    have howed : d.owed gain gainAct ⟨phase,.act a::rest⟩ = gainAct a+d.allGains gain gainAct rest := by
      cases phase <;> exact d.allGains_cons _ _
    rw [howed,hcounts.act,← add_assoc]
    rfl
  | read | miss | write => rfl
  | hit k rest x hpresent => simp only [LockedData.owed,allGains_cons,gains]
  | insert k rest x =>
    rw [hcounts.insert]
    simp only [LockedData.owed,allGains_cons,gains]
  | found k rest e todo x y happly =>
    simp only [LockedData.owed,List.map_cons,List.sum_cons]
    rw [hcounts.apply e x x' happly,add_assoc,add_assoc]
  | entered k rest e todo x y happly =>
    simp only [LockedData.owed,List.map_cons,List.sum_cons]
    rw [hcounts.apply e x x' happly,add_assoc,add_assoc]
  | unread k rest x | unwrite k rest x =>
    simp only [LockedData.owed,List.map_nil,List.sum_nil,zero_add]

end Counting

section Mending

variable {U : κ → Prop} {ℓ : Λ} {good : σ → Prop} {mends : ε → Prop}

/-- A condition that only insertions under one lock break, and each of them with an effect to come in its
section that makes it good. -/
structure Mended (d : LockedData σ Λ κ ε α) (U : κ → Prop) (ℓ : Λ) (good : σ → Prop) (mends : ε → Prop) :
    Prop where
  act : ∀ a x, good x → good (d.act a x)
  apply : ∀ k, U k → ∀ e ∈ d.effects k, ∀ x y, d.apply e x = some y → good x ∨ mends e → good y
  insert : ∀ k, U k → ∀ x, good x → good (d.insert k x) ∨ d.lock k = ℓ ∧ ∃ e ∈ d.effects k, mends e

/-- A thread that has inserted and is about to make good. -/
def Mending (d : LockedData σ Λ κ ε α) (ℓ : Λ) (mends : ε → Prop) (t : Thread κ ε α) : Prop :=
  ∃ k rest todo, t = ⟨.entered todo,.enter k::rest⟩ ∧ d.lock k = ℓ ∧ ∃ e ∈ todo, mends e

theorem Mending.held (h : d.Mending ℓ mends t) : d.held t = some (ℓ,true) := by
  obtain ⟨k,rest,todo,rfl,rfl,-⟩ := h
  rfl

/-- Only sections of one kind are left to do. -/
def Uses (U : κ → Prop) (t : Thread κ ε α) : Prop := ∀ k, .enter k ∈ t.tasks → U k

theorem Turn.uses (h : d.Turn t x t' x') (huses : Uses U t) : Uses U t' := by
  cases h with
  | act | unread | unwrite => exact fun k hk => huses k (List.mem_cons_of_mem _ hk)
  | read | hit | miss | found | write | insert | entered => exact huses

theorem Turn.keeps_good (h : d.Turn t x t' x') (hmended : d.Mended U ℓ good mends) (hfit : d.Fit x t)
    (huses : Uses U t) (hgood : good x) : good x' ∨ d.Mending ℓ mends t' := by
  cases h with
  | act phase a rest x => exact Or.inl (hmended.act a x hgood)
  | insert k rest x =>
    refine (hmended.insert k (huses k List.mem_cons_self) x hgood).imp_right ?_
    rintro ⟨hlock,he⟩
    exact ⟨k,rest,d.effects k,rfl,hlock,he⟩
  | found k rest e todo x y happly =>
    cases hfit with
    | found k rest todo hpresent htodo => exact Or.inl (hmended.apply k (huses k List.mem_cons_self) e
        (htodo List.mem_cons_self) x x' happly (Or.inl hgood))
  | entered k rest e todo x y happly =>
    cases hfit with
    | entered k rest todo hpresent htodo => exact Or.inl (hmended.apply k (huses k List.mem_cons_self) e
        (htodo List.mem_cons_self) x x' happly (Or.inl hgood))
  | read | hit | miss | unread | write | unwrite => exact Or.inl hgood

/-- A thread that is about to make good does so, or has still to. -/
theorem Turn.mending (h : d.Turn t x t' x') (hmended : d.Mended U ℓ good mends) (hfit : d.Fit x t)
    (huses : Uses U t) (hmending : d.Mending ℓ mends t) : good x' ∨ d.Mending ℓ mends t' := by
  obtain ⟨k,rest,todo,rfl,hlock,e,he,hmends⟩ := hmending
  cases h with
  | unwrite k rest x => cases he
  | entered k rest e' todo x y happly =>
    rcases List.mem_cons.mp he with rfl | he
    · cases hfit with
      | entered k rest todo hpresent htodo => exact Or.inl (hmended.apply k (huses k List.mem_cons_self) e
          (htodo List.mem_cons_self) x x' happly (Or.inr hmends))
    · exact Or.inr ⟨k,rest,todo,rfl,hlock,e,he,hmends⟩

end Mending

section Systems

def Finished (s : System ι σ κ ε α) : Prop := ∀ i, (s.threads i).tasks = []

/-- Threads at the start of their tasks. -/
def spawn (x : σ) (tasks : ι → List (Task κ α)) : System ι σ κ ε α := ⟨x,fun i => ⟨.start,tasks i⟩⟩

/-- All threads are in their code, and a thread that has a lock alone has it alone. -/
structure Sound (d : LockedData σ Λ κ ε α) (s : System ι σ κ ε α) : Prop where
  fit : ∀ i, d.Fit s.shared (s.threads i)
  alone : ∀ i j ℓ b, i ≠ j → d.held (s.threads i) = some (ℓ,true) → d.held (s.threads j) ≠ some (ℓ,b)

theorem Sound.spawn (x : σ) (tasks : ι → List (Task κ α)) : d.Sound (spawn x tasks) :=
  ⟨fun i => .start (tasks i),fun i j ℓ b hij h => by cases h⟩

variable [Fintype ι] [DecidableEq Λ]

/-- A reader needs that nobody writes, a writer that nobody has the lock. -/
def granted (d : LockedData σ Λ κ ε α) (s : System ι σ κ ε α) (t : Thread κ ε α) : Bool :=
  match t.phase,t.tasks with
  | .start, .enter k::_ => decide (∀ j, d.held (s.threads j) ≠ some (d.lock k,true))
  | .missing, .enter k::_ => decide (∀ j, d.held (s.threads j) ≠ some (d.lock k,true) ∧
      d.held (s.threads j) ≠ some (d.lock k,false))
  | _, _ => true

/-- The locks that a turn takes were free for it. -/
theorem Turn.held_of {s : System ι σ κ ε α} (h : d.Turn t x t' x') (hgranted : d.granted s t = true)
    {ℓ : Λ} {b : Bool} (hheld : d.held t' = some (ℓ,b)) : d.held t = some (ℓ,b) ∨
      (∀ j, d.held (s.threads j) ≠ some (ℓ,true)) ∧ (b = true → ∀ j, d.held (s.threads j) ≠ some (ℓ,false)) := by
  cases h with
  | read k rest x =>
    cases hheld
    exact Or.inr ⟨of_decide_eq_true hgranted,fun h => by cases h⟩
  | write k rest x =>
    cases hheld
    have hfree := of_decide_eq_true hgranted
    exact Or.inr ⟨fun j => (hfree j).1,fun _ j => (hfree j).2⟩
  | hit | found | insert | entered => exact Or.inl hheld
  | act | miss | unread | unwrite => cases hheld

variable [DecidableEq ι]

def System.put (s : System ι σ κ ε α) (i : ι) (t : Thread κ ε α) (x : σ) : System ι σ κ ε α :=
  ⟨x,Function.update s.threads i t⟩

/-- A turn of a thread; one that has to wait or has nothing left to do has none. -/
def step (d : LockedData σ Λ κ ε α) (s : System ι σ κ ε α) (i : ι) : Option (System ι σ κ ε α) :=
  if d.granted s (s.threads i) then
    (d.turn (s.threads i) s.shared).map fun r => s.put i r.1 r.2
  else none

/-- The scheduler names the threads; a thread that has no turn lets it pass. -/
def run (d : LockedData σ Λ κ ε α) (s : System ι σ κ ε α) (l : List ι) : System ι σ κ ε α :=
  l.foldl (fun s i => (d.step s i).getD s) s

variable {s s' : System ι σ κ ε α} {i : ι}

theorem exists_of_step (h : d.step s i = some s') : d.granted s (s.threads i) = true ∧
    ∃ t x, d.Turn (s.threads i) s.shared t x ∧ s' = s.put i t x := by
  unfold step at h
  split at h
  next hgranted =>
    obtain ⟨⟨t,x⟩,hturn,rfl⟩ := Option.map_eq_some_iff.mp h
    exact ⟨hgranted,t,x,turn_cases hturn,rfl⟩
  next => cases h

/-- A sum over the threads, after a turn of one. -/
theorem sum_put {A : Type*} [AddCommMonoid A] (f : Thread κ ε α → A) (s : System ι σ κ ε α) (i : ι)
    (t : Thread κ ε α) (x : σ) : ∃ rest, ∑ j, f (s.threads j) = f (s.threads i)+rest ∧
      ∑ j, f ((s.put i t x).threads j) = f t+rest := by
  refine ⟨∑ j ∈ Finset.univ.erase i, f (s.threads j),(Finset.add_sum_erase _ _ (Finset.mem_univ i)).symm,?_⟩
  rw [← Finset.add_sum_erase _ _ (Finset.mem_univ i)]
  refine congrArg₂ _ (congrArg f (Function.update_self ..)) (Finset.sum_congr rfl fun j hj => ?_)
  exact congrArg f (Function.update_of_ne (Finset.ne_of_mem_erase hj) ..)

theorem Sound.step (h : d.Sound s) (hstep : d.step s i = some s') : d.Sound s' := by
  obtain ⟨hgranted,t,x,hturn,rfl⟩ := exists_of_step hstep
  have hself : (s.put i t x).threads i = t := Function.update_self ..
  have hother : ∀ j, j ≠ i → (s.put i t x).threads j = s.threads j := fun j hj => Function.update_of_ne hj ..
  refine ⟨fun j => ?_,fun j k ℓ b hjk hj hk => ?_⟩
  · by_cases hji : j = i
    · subst hji
      rw [hself]
      exact (h.fit j).turn hturn
    · rw [hother j hji]
      exact (h.fit j).other hturn
  · by_cases hji : j = i
    · subst hji
      rw [hself] at hj
      rw [hother k (Ne.symm hjk)] at hk
      rcases hturn.held_of hgranted hj with hold | ⟨hwriters,hreaders⟩
      · exact h.alone j k ℓ b hjk hold hk
      · cases b with
        | true => exact hwriters k hk
        | false => exact hreaders rfl k hk
    · rw [hother j hji] at hj
      by_cases hki : k = i
      · subst hki
        rw [hself] at hk
        rcases hturn.held_of hgranted hk with hold | ⟨hwriters,-⟩
        · exact h.alone j k ℓ b hjk hj hold
        · exact hwriters j hj
      · rw [hother k hki] at hk
        exact h.alone j k ℓ b hjk hj hk

/-- A run keeps what every turn keeps. -/
theorem run_induction {P : System ι σ κ ε α → Prop} (hstep : ∀ s i s', P s → d.step s i = some s' → P s')
    (h : P s) (l : List ι) : P (d.run s l) := by
  induction l generalizing s with
  | nil => exact h
  | cons i l ih =>
    refine ih ?_
    change P ((d.step s i).getD s)
    cases hi : d.step s i with
    | none => exact h
    | some s' => exact hstep s i s' h hi

theorem Sound.run (h : d.Sound s) (l : List ι) : d.Sound (d.run s l) :=
  run_induction (fun _ _ _ h hstep => h.step hstep) h l

/-- Nobody waits while he has a lock, so somebody can go on. -/
theorem Sound.progress (h : d.Sound s) (hleft : ¬Finished s) : ∃ i, (d.step s i).isSome = true := by
  have hgo : ∀ i, (s.threads i).tasks ≠ [] → d.granted s (s.threads i) = true → (d.step s i).isSome = true := by
    intro i htasks hgranted
    unfold LockedData.step
    rw [if_pos hgranted,Option.isSome_map]
    exact (h.fit i).exists_turn htasks
  by_cases hheld : ∃ i, d.held (s.threads i) ≠ none
  · obtain ⟨i,hi⟩ := hheld
    refine ⟨i,hgo i ?_ ?_⟩
    · intro htasks
      refine hi ?_
      unfold held
      rw [htasks]
      cases (s.threads i).phase <;> rfl
    · unfold granted
      split
      next hphase htasks =>
        refine absurd ?_ hi
        unfold held
        rw [hphase,htasks]
      next hphase htasks =>
        refine absurd ?_ hi
        unfold held
        rw [hphase,htasks]
      next => rfl
  · have hfree : ∀ j ℓ b, d.held (s.threads j) ≠ some (ℓ,b) := by
      intro j ℓ b hj
      exact hheld ⟨j,by rw [hj]; exact Option.some_ne_none _⟩
    obtain ⟨i,hi⟩ := not_forall.mp hleft
    refine ⟨i,hgo i hi ?_⟩
    unfold granted
    split
    · exact decide_eq_true fun j => hfree j _ _
    · exact decide_eq_true fun j => ⟨hfree j _ _,hfree j _ _⟩
    · rfl

/-- Every turn brings the end nearer. -/
theorem step_left (h : d.step s i = some s') :
    ∑ j, d.left (s'.threads j) < ∑ j, d.left (s.threads j) := by
  obtain ⟨-,t,x,hturn,rfl⟩ := exists_of_step h
  obtain ⟨rest,hold,hnew⟩ := sum_put d.left s i t x
  rw [hold,hnew]
  exact Nat.add_lt_add_right hturn.left_lt rest

/-- Wherever a run stands, it can be brought to its end. -/
theorem Sound.can_finish (h : d.Sound s) : ∃ l, Finished (d.run s l) := by
  induction hleft : ∑ j, d.left (s.threads j) using Nat.strong_induction_on generalizing s with
  | _ left ih =>
    by_cases hfinished : Finished s
    · exact ⟨[],hfinished⟩
    · obtain ⟨i,hi⟩ := h.progress hfinished
      obtain ⟨s',hstep⟩ := Option.isSome_iff_exists.mp hi
      obtain ⟨l,hl⟩ := ih _ (hleft ▸ step_left hstep) (h.step hstep) rfl
      refine ⟨i::l,?_⟩
      have hrun : d.run s (i::l) = d.run s' l := by
        simp only [LockedData.run,List.foldl_cons,hstep,Option.getD_some]
      rw [hrun]
      exact hl

section Counting

variable {A : Type*} [AddCommMonoid A] {read : σ → A} {gain : ε → A} {gainAct : α → A}

/-- Whatever the schedule, nothing is lost and nothing counted twice. -/
theorem total_run (hcounts : d.Counts read gain gainAct) (s : System ι σ κ ε α) (l : List ι) :
    read (d.run s l).shared+∑ j, d.owed gain gainAct ((d.run s l).threads j) =
      read s.shared+∑ j, d.owed gain gainAct (s.threads j) := by
  refine run_induction (P := fun s' => read s'.shared+∑ j, d.owed gain gainAct (s'.threads j) =
    read s.shared+∑ j, d.owed gain gainAct (s.threads j)) (fun s₁ i s₂ h hstep => ?_) rfl l
  obtain ⟨-,t,x,hturn,rfl⟩ := exists_of_step hstep
  obtain ⟨rest,hold,hnew⟩ := sum_put (d.owed gain gainAct) s₁ i t x
  rw [← h,hold,hnew,← add_assoc,← add_assoc]
  exact congrArg (· + rest) (hturn.owed hcounts)

/-- At the end it is what all the tasks add up to. -/
theorem total_finished (hcounts : d.Counts read gain gainAct) {x : σ} {tasks : ι → List (Task κ α)}
    {l : List ι} (h : Finished (d.run (spawn x tasks) l)) :
    read (d.run (spawn x tasks) l).shared = read x+∑ j, d.allGains gain gainAct (tasks j) := by
  have htotal := total_run hcounts (spawn x tasks) l
  have hzero : ∑ j, d.owed gain gainAct ((d.run (spawn x tasks) l).threads j) = 0 := by
    refine Finset.sum_eq_zero fun j _ => ?_
    unfold owed
    rw [h j]
    cases ((d.run (spawn x tasks) l).threads j).phase <;> rfl
  rw [hzero,add_zero] at htotal
  exact htotal

end Counting

section Mended

variable {U : κ → Prop} {ℓ : Λ} {good : σ → Prop} {mends : ε → Prop}

/-- In every run the condition holds, or a thread is about to make it good. -/
theorem good_or_mending (hmended : d.Mended U ℓ good mends) {x : σ} {tasks : ι → List (Task κ α)}
    (hgood : good x) (huses : ∀ i, Uses U (⟨.start,tasks i⟩ : Thread κ ε α)) (l : List ι) :
    good (d.run (spawn x tasks) l).shared ∨ ∃ i, d.Mending ℓ mends ((d.run (spawn x tasks) l).threads i) := by
  have hinv := run_induction (d := d) (s := spawn x tasks) (P := fun s => d.Sound s ∧ (∀ i, Uses U (s.threads i)) ∧
    (good s.shared ∨ ∃ i, d.Mending ℓ mends (s.threads i))) (fun s i s' h hstep => ?_)
    ⟨.spawn x tasks,huses,Or.inl hgood⟩ l
  · exact hinv.2.2
  · obtain ⟨hsound,huses,hgood⟩ := h
    refine ⟨hsound.step hstep,?_⟩
    obtain ⟨-,t,y,hturn,rfl⟩ := exists_of_step hstep
    have hself : (s.put i t y).threads i = t := Function.update_self ..
    have hother : ∀ j, j ≠ i → (s.put i t y).threads j = s.threads j := fun j hj => Function.update_of_ne hj ..
    refine ⟨fun j => ?_,?_⟩
    · by_cases hji : j = i
      · subst hji
        rw [hself]
        exact hturn.uses (huses j)
      · rw [hother j hji]
        exact huses j
    · have hnext : good s.shared ∨ d.Mending ℓ mends (s.threads i) → good y ∨ d.Mending ℓ mends t := fun h =>
        h.elim (hturn.keeps_good hmended (hsound.fit i) (huses i)) (hturn.mending hmended (hsound.fit i) (huses i))
      have hreturn : good y ∨ d.Mending ℓ mends t → good y ∨ ∃ j, d.Mending ℓ mends ((s.put i t y).threads j) :=
        Or.imp_right fun h => ⟨i,by rw [hself]; exact h⟩
      rcases hgood with hgood | ⟨j,hj⟩
      · exact hreturn (hnext (Or.inl hgood))
      · by_cases hji : j = i
        · subst hji
          exact hreturn (hnext (Or.inr hj))
        · exact Or.inr ⟨j,by rw [hother j hji]; exact hj⟩

/-- While nobody has the lock alone, the condition holds. -/
theorem good_of_unwritten (hmended : d.Mended U ℓ good mends) {x : σ} {tasks : ι → List (Task κ α)}
    (hgood : good x) (huses : ∀ i, Uses U (⟨.start,tasks i⟩ : Thread κ ε α)) (l : List ι)
    (hfree : ∀ j, d.held ((d.run (spawn x tasks) l).threads j) ≠ some (ℓ,true)) :
    good (d.run (spawn x tasks) l).shared := by
  rcases good_or_mending hmended hgood huses l with hgood | ⟨i,hi⟩
  · exact hgood
  · exact absurd hi.held (hfree i)

end Mended

end Systems

end LockedData
