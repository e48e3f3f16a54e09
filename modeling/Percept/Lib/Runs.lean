import Mathlib

/-! Runs of a system that takes one step for each action of a list: what holds in every state
of a run, what holds of every step of it, and the induction that connects the two. -/
namespace Runs

variable {σ α : Type*} (step : σ → α → σ)

/-- `P` holds in every state of the run, the first and the last one included. -/
def Always (P : σ → Prop) : σ → List α → Prop
  | s, [] => P s
  | s, a::l => P s ∧ Always P (step s a) l

/-- `K` holds of every action of the run, in the state where it is taken. -/
def EachStep (K : σ → α → Prop) : σ → List α → Prop
  | _, [] => True
  | s, a::l => K s a ∧ EachStep K (step s a) l

variable {step} {I P : σ → Prop} {K : σ → α → Prop}

theorem Always.mono {Q : σ → Prop} (hPQ : ∀ s, P s → Q s) {s : σ} {l : List α}
    (h : Always step P s l) : Always step Q s l := by
  induction l generalizing s with
  | nil => exact hPQ s h
  | cons a l ih => exact ⟨hPQ s h.1,ih h.2⟩

theorem Always.and {Q : σ → Prop} {s : σ} {l : List α} (hP : Always step P s l)
    (hQ : Always step Q s l) : Always step (fun s => P s ∧ Q s) s l := by
  induction l generalizing s with
  | nil => exact ⟨hP,hQ⟩
  | cons a l ih => exact ⟨⟨hP.1,hQ.1⟩,ih hP.2 hQ.2⟩

theorem Always.last {s : σ} {l : List α} (h : Always step P s l) : P (l.foldl step s) := by
  induction l generalizing s with
  | nil => exact h
  | cons a l ih => exact ih h.2

/-- What every step of the run preserves holds in all of its states. -/
theorem always_of_step {s : σ} {l : List α} (hstep : ∀ a ∈ l, ∀ s, P s → P (step s a)) (h : P s) :
    Always step P s l := by
  induction l generalizing s with
  | nil => exact h
  | cons a l ih =>
    exact ⟨h,ih (fun b hb => hstep b (List.mem_cons_of_mem a hb)) (hstep a List.mem_cons_self s h)⟩

theorem eachStep_congr {K' : σ → α → Prop} (h : ∀ s a, K s a ↔ K' s a) {s : σ} (l : List α) :
    EachStep step K s l ↔ EachStep step K' s l := by
  induction l generalizing s with
  | nil => exact Iff.rfl
  | cons a l ih => exact and_congr (h s a) ih

/-- When `K` decides which steps keep `P`, given an invariant, it decides which runs stay
inside `P`. -/
theorem always_iff_eachStep (hinv : ∀ s a, I s → I (step s a))
    (hstep : ∀ s a, I s → P s → (P (step s a) ↔ K s a)) {s : σ} (hI : I s) (hP : P s)
    (l : List α) : Always step P s l ↔ EachStep step K s l := by
  induction l generalizing s with
  | nil => exact ⟨fun _ => trivial,fun _ => hP⟩
  | cons a l ih =>
    constructor
    · rintro ⟨_,hrest⟩
      have hnext : P (step s a) := by
        cases l with
        | nil => exact hrest
        | cons b l => exact hrest.1
      exact ⟨(hstep s a hI hP).mp hnext,(ih (hinv s a hI) hnext).mp hrest⟩
    · rintro ⟨ha,hrest⟩
      exact ⟨hP,(ih (hinv s a hI) ((hstep s a hI hP).mpr ha)).mpr hrest⟩

end Runs
