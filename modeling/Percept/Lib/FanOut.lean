import Mathlib

/-! Recursive fan-out over a graph. A node that is asked makes its calls, some of which ask
another node, and answers when all of its calls have come back. The depth bounds how far the
recursion is followed. -/
namespace FanOut

variable {α β : Type*} (calls : α → List β) (serves : β → Option α)

/-- Node `a` makes a call that asks `b`. -/
def Asks (a b : α) : Prop := ∃ c ∈ calls a, serves c = some b

/-- Within the depth every call below `a` has come back. -/
def answers : ℕ → α → Bool
  | 0, _ => false
  | n+1, a => (calls a).all fun c => (serves c).all (answers n)

/-- Calls made below `a` within the depth. -/
def count : ℕ → α → ℕ
  | 0, _ => 0
  | n+1, a => ((calls a).map fun c => 1+((serves c).map (count n)).getD 0).sum

variable {calls serves}

theorem answers_succ_iff {n : ℕ} {a : α} :
    answers calls serves (n+1) a = true ↔ ∀ b, Asks calls serves a b → answers calls serves n b = true := by
  simp only [answers,List.all_eq_true,Option.all_eq_true]
  constructor
  · rintro h b ⟨c,hc,hb⟩
    exact h c hc b hb
  · intro h c hc b hb
    exact h b ⟨c,hc,hb⟩

theorem answers_mono {n m : ℕ} {a : α} (hnm : n ≤ m) (h : answers calls serves n a = true) :
    answers calls serves m a = true := by
  induction n generalizing m a with
  | zero => cases h
  | succ n ih =>
    obtain ⟨m,rfl⟩ : ∃ k, m=k+1 := ⟨m-1,by omega⟩
    rw [answers_succ_iff] at h ⊢
    exact fun b hb => ih (by omega) (h b hb)

/-- The calls of one node end within one depth when each of them ends within some. -/
theorem exists_depth {a : α} (h : ∀ b, Asks calls serves a b → ∃ n, answers calls serves n b = true) :
    ∃ n, answers calls serves n a = true := by
  have hall : ∀ l ⊆ calls a, ∃ n, ∀ c ∈ l, ∀ b, serves c = some b → answers calls serves n b = true := by
    intro l hl
    induction l with
    | nil => exact ⟨0,by simp⟩
    | cons c l ih =>
      obtain ⟨hc,hl⟩ := List.cons_subset.mp hl
      obtain ⟨n,hn⟩ := ih hl
      obtain ⟨m,hm⟩ : ∃ m, ∀ b, serves c = some b → answers calls serves m b = true := by
        cases hs : serves c with
        | none => exact ⟨0,by simp⟩
        | some b =>
          obtain ⟨m,hm⟩ := h b ⟨c,hc,hs⟩
          exact ⟨m,by simpa using hm⟩
      refine ⟨max n m,fun x hx b hb => ?_⟩
      rcases List.mem_cons.mp hx with rfl | hx
      · exact answers_mono (le_max_right n m) (hm b hb)
      · exact answers_mono (le_max_left n m) (hn x hx b hb)
  obtain ⟨n,hn⟩ := hall _ (List.Subset.refl _)
  exact ⟨n+1,answers_succ_iff.mpr fun b ⟨c,hc,hb⟩ => hn c hc b hb⟩

/-- A node answers exactly when no path of asked nodes that begins there is endless. -/
theorem exists_answers_iff {a : α} :
    (∃ n, answers calls serves n a = true) ↔ Acc (flip (Asks calls serves)) a := by
  constructor
  · rintro ⟨n,hn⟩
    induction n generalizing a with
    | zero => cases hn
    | succ n ih => exact Acc.intro a fun b hb => ih (answers_succ_iff.mp hn b hb)
  · intro h
    induction h with
    | intro a _ ih => exact exists_depth ih

theorem lt_count_succ {n : ℕ} {a b : α} (h : Asks calls serves a b) :
    count calls serves n b < count calls serves (n+1) a := by
  obtain ⟨c,hc,hb⟩ := h
  rw [count]
  have hle := List.single_le_sum
    (l := (calls a).map fun c => 1+((serves c).map (count calls serves n)).getD 0)
    (fun _ _ => Nat.zero_le _) _ (List.mem_map_of_mem hc)
  rw [hb,Option.map_some,Option.getD_some] at hle
  omega

/-- Below an answered depth no further call is made. -/
theorem count_le_of_answers {n : ℕ} {a : α} (h : answers calls serves n a = true) (m : ℕ) :
    count calls serves m a ≤ count calls serves n a := by
  induction n generalizing m a with
  | zero => cases h
  | succ n ih =>
    cases m with
    | zero => exact Nat.zero_le _
    | succ m =>
      rw [answers_succ_iff] at h
      rw [count,count]
      refine List.sum_le_sum fun c hc => Nat.add_le_add_left ?_ 1
      cases hs : serves c with
      | none => rfl
      | some b => exact ih (h b ⟨c,hc,hs⟩) m

/-- An endless path of asked nodes makes a call at every depth. -/
theorem le_count_of_not_acc {a : α} (h : ¬Acc (flip (Asks calls serves)) a) (n : ℕ) :
    n ≤ count calls serves n a := by
  induction n generalizing a with
  | zero => exact Nat.zero_le _
  | succ n ih =>
    obtain ⟨b,hb,hasks⟩ := exists_not_acc_lt_of_not_acc h
    exact (ih hb).trans_lt (lt_count_succ hasks)

theorem bounded_count_iff {a : α} :
    (∃ N, ∀ n, count calls serves n a ≤ N) ↔ Acc (flip (Asks calls serves)) a := by
  constructor
  · rintro ⟨N,hN⟩
    by_contra h
    have hlarge := le_count_of_not_acc h (N+1)
    have hsmall := hN (N+1)
    omega
  · intro h
    obtain ⟨n,hn⟩ := exists_answers_iff.mpr h
    exact ⟨_,count_le_of_answers hn⟩

end FanOut

theorem Acc.not_self {α : Type*} {r : α → α → Prop} {a : α} (h : Acc r a) : ¬r a a := by
  induction h with
  | intro a _ ih => exact fun haa => ih a haa haa

/-- In a finite graph only a cycle makes a path endless. -/
theorem Relation.acc_flip_iff_no_cycle {α : Type*} [Finite α] {r : α → α → Prop} {a : α} :
    Acc (flip r) a ↔ ¬∃ b, Relation.ReflTransGen r a b ∧ Relation.TransGen r b b := by
  constructor
  · rintro h ⟨b,hab,hbb⟩
    have hb : Acc (flip r) b := by
      clear hbb
      induction hab with
      | refl => exact h
      | tail _ hstep ih => exact Acc.inv ih hstep
    exact hb.transGen.not_self (Relation.transGen_swap.mpr hbb)
  · intro h
    by_contra hacc
    obtain ⟨f,rfl,hf⟩ := not_acc_iff_exists_descending_chain.mp hacc
    have hstep : ∀ k, r (f k) (f (k+1)) := hf
    have hpath : ∀ m k, Relation.ReflTransGen r (f m) (f (m+k)) := by
      intro m k
      induction k with
      | zero => exact .refl
      | succ k ih => exact ih.tail (hstep (m+k))
    obtain ⟨m,n,hne,heq⟩ := Finite.exists_ne_map_eq_of_infinite f
    wlog hmn : m < n generalizing m n
    · exact this n m hne.symm heq.symm (by omega)
    obtain ⟨k,rfl⟩ : ∃ k, n=m+1+k := ⟨n-(m+1),by omega⟩
    have hcycle := Relation.TransGen.head' (hstep m) (hpath (m+1) k)
    rw [← heq] at hcycle
    exact h ⟨f m,by simpa using hpath 0 m,hcycle⟩
