import Mathlib

/-! `ORDER BY` for rows with pairwise different sort keys. The sorted list is then
determined by its rows alone, so sorting commutes with selection, and a selection
that only keeps the front of the order is a prefix. -/
namespace OrderBy

variable {ρ κ : Type*} [LinearOrder κ]

def orderBy (key : ρ → κ) (rows : List ρ) : List ρ :=
  rows.insertionSort fun a b => key a ≤ key b

/-- Strictly increasing keys. -/
def Ascending (key : ρ → κ) (rows : List ρ) : Prop :=
  rows.Pairwise fun a b => key a < key b

theorem orderBy_perm (key : ρ → κ) (rows : List ρ) : (orderBy key rows).Perm rows :=
  List.perm_insertionSort _ rows

@[simp] theorem mem_orderBy {key : ρ → κ} {rows : List ρ} {r : ρ} :
    r ∈ orderBy key rows ↔ r ∈ rows := (orderBy_perm key rows).mem_iff

theorem orderBy_ascending {key : ρ → κ} {rows : List ρ} (h : (rows.map key).Nodup) :
    Ascending key (orderBy key rows) := by
  have hle : (orderBy key rows).Pairwise fun a b => key a ≤ key b := by
    have : Std.Total fun a b : ρ => key a ≤ key b := ⟨fun a b => le_total _ _⟩
    have : IsTrans ρ fun a b => key a ≤ key b := ⟨fun _ _ _ => le_trans⟩
    exact List.pairwise_insertionSort _ rows
  have hne : (orderBy key rows).Pairwise fun a b => key a ≠ key b := by
    have hp : ((orderBy key rows).map key).Nodup :=
      ((orderBy_perm key rows).map key).nodup_iff.mpr h
    exact List.pairwise_map.mp hp
  exact (hle.and hne).imp fun h => lt_of_le_of_ne h.1 h.2

theorem Ascending.nodup_keys {key : ρ → κ} {rows : List ρ} (h : Ascending key rows) :
    (rows.map key).Nodup :=
  List.pairwise_map.mpr (h.imp fun hlt => hlt.ne)

theorem Ascending.sublist {key : ρ → κ} {a b : List ρ} (h : Ascending key b)
    (hs : a.Sublist b) : Ascending key a := List.Pairwise.sublist hs h

theorem Ascending.filter {key : ρ → κ} {rows : List ρ} (h : Ascending key rows)
    (p : ρ → Bool) : Ascending key (rows.filter p) := h.sublist List.filter_sublist

/-- A key occurs once. -/
theorem Ascending.countP_key {key : ρ → κ} {rows : List ρ} (h : Ascending key rows) {r : ρ}
    (hr : r ∈ rows) : rows.countP (fun s => key s = key r) = 1 := by
  have hone := List.count_eq_one_of_mem h.nodup_keys (List.mem_map_of_mem (f := key) hr)
  rw [List.count,List.countP_map] at hone
  rw [← hone]
  congr 1

/-- Two ascending lists with the same rows are equal. -/
theorem Ascending.ext {key : ρ → κ} {a b : List ρ} (ha : Ascending key a)
    (hb : Ascending key b) (h : ∀ r, r ∈ a ↔ r ∈ b) : a = b := by
  have : Std.Irrefl fun a b : ρ => key a < key b := ⟨fun _ => lt_irrefl _⟩
  have : Std.Antisymm fun a b : ρ => key a < key b := ⟨fun _ _ h h' => (lt_asymm h h').elim⟩
  exact List.Pairwise.eq_of_mem_iff ha hb h

theorem orderBy_filter (key : ρ → κ) {rows : List ρ} (h : (rows.map key).Nodup)
    (p : ρ → Bool) : orderBy key (rows.filter p) = (orderBy key rows).filter p := by
  have hf : ((rows.filter p).map key).Nodup := h.sublist (List.filter_sublist.map key)
  refine (orderBy_ascending hf).ext ((orderBy_ascending h).filter p) fun r => ?_
  simp

/-- A predicate that, once false, stays false along the list selects a prefix. -/
theorem filter_eq_take {p : ρ → Bool} {l : List ρ}
    (h : l.Pairwise fun a b => p b = true → p a = true) : l.filter p = l.take (l.countP p) := by
  induction l with
  | nil => rfl
  | cons a l ih =>
    obtain ⟨ha,hl⟩ := List.pairwise_cons.mp h
    by_cases hp : p a = true
    · simp [hp,ih hl]
    · have hnone : ∀ b ∈ l, ¬ p b = true := fun b hb hpb => hp (ha b hb hpb)
      simp [hp,List.filter_eq_nil_iff.mpr hnone,
        List.countP_eq_zero.mpr hnone]

/-- A front part lies within that prefix when the predicate holds on all of it. -/
theorem le_countP_iff {p : ρ → Bool} {l : List ρ} (h : l.Pairwise fun a b => p b = true → p a = true)
    {k : ℕ} (hk : k ≤ l.length) : k ≤ l.countP p ↔ ∀ a ∈ l.take k, p a = true := by
  constructor
  · intro hle a ha
    have hfront : l.take k = (l.filter p).take k := by
      rw [filter_eq_take h,List.take_take,min_eq_left hle]
    rw [hfront] at ha
    exact (List.mem_filter.mp (List.mem_of_mem_take ha)).2
  · intro hall
    have hcount : (l.take k).countP p = k := by
      rw [List.countP_eq_length.mpr hall,List.length_take,min_eq_left hk]
    exact hcount.symm.trans_le ((List.take_sublist k l).countP_le)

/-- The place of a row is the number of rows before it. -/
theorem Ascending.mem_take_iff {key : ρ → κ} {rows : List ρ} (h : Ascending key rows) {r : ρ}
    (hr : r ∈ rows) (j : ℕ) : r ∈ rows.take j ↔ rows.countP (fun s => key s < key r) < j := by
  induction rows generalizing j with
  | nil => cases hr
  | cons a rows ih =>
    obtain ⟨ha,hrows⟩ := List.pairwise_cons.mp h
    have hlt : r ∈ rows → key a < key r := ha r
    cases j with
    | zero => simp
    | succ j =>
      rw [List.take_succ_cons,List.mem_cons,List.countP_cons]
      rcases List.mem_cons.mp hr with rfl | hmem
      · have hnone : rows.countP (fun s => key s < key r) = 0 :=
          List.countP_eq_zero.mpr fun s hs => by simpa using (ha s hs).le
        simp [hnone]
      · have hne : r ≠ a := fun heq => lt_irrefl _ (heq ▸ hlt hmem)
        rw [if_pos (by simpa using hlt hmem),Nat.add_lt_add_iff_right,← ih hrows hmem]
        simp [hne]

end OrderBy
