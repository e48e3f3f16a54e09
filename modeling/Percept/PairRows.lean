import Percept.Sweeper

/-! The log of one pair, newest row first. Every dimension of a sweep, in whatever way it is
written, cuts this list to a front part and leaves the lists of the other pairs alone. -/
namespace Percept

open OrderBy

namespace ColdStore

variable {s s' : ColdStore} {p q : Pair}

theorem newestFirst_perm (s : ColdStore) (p : Pair) :
    (s.newestFirst p).Perm (s.events.rows.filter (ofPair p)) := orderBy_perm _ _

@[simp] theorem mem_newestFirst {r : EventRow} :
    r ∈ s.newestFirst p ↔ r ∈ s.events.rows ∧ r.pair = p := by
  rw [(s.newestFirst_perm p).mem_iff]
  simp [ofPair]

theorem length_newestFirst (s : ColdStore) (p : Pair) :
    (s.newestFirst p).length = s.countForPair p := by
  rw [(s.newestFirst_perm p).length_eq,countForPair,List.countP_eq_length_filter]

theorem nodup_ages (s : ColdStore) : (s.events.rows.map EventRow.age).Nodup := by
  refine List.Nodup.of_map (fun k : OrderDual (Int64 ×ₗ Ulid) => (ofLex (OrderDual.ofDual k)).2) ?_
  simpa [Function.comp_def,EventRow.age,EventRow.stamp,StoredRow.stamp] using s.events.nodup

theorem newestFirst_ascending (s : ColdStore) (p : Pair) :
    Ascending EventRow.age (s.newestFirst p) :=
  orderBy_ascending (s.nodup_ages.sublist (List.filter_sublist.map _))

/-- Along the list the times do not increase. -/
theorem newestFirst_ts (s : ColdStore) (p : Pair) :
    (s.newestFirst p).Pairwise fun a b => b.tsMsUtc ≤ a.tsMsUtc :=
  (s.newestFirst_ascending p).imp fun {a b} h => by
    have hlt : b.stamp < a.stamp := h
    rcases Prod.Lex.toLex_lt_toLex.mp hlt with h | h
    · exact le_of_lt h
    · exact h.1.le

theorem nodup_newestFirst_ids (s : ColdStore) (p : Pair) :
    ((s.newestFirst p).map (·.eventId)).Nodup :=
  (((s.newestFirst_perm p).map _).nodup_iff).mpr
    (s.events.nodup.sublist (List.filter_sublist.map _))

theorem oldestFirst_eq (s : ColdStore) (p : Pair) :
    s.oldestFirst p = (s.newestFirst p).reverse := by
  have hnd : (s.events.rows.map EventRow.stamp).Nodup := s.nodup_ages
  refine (orderBy_ascending (hnd.sublist (List.filter_sublist.map _))).ext
    (List.pairwise_reverse.mpr (s.newestFirst_ascending p)) fun r => ?_
  rw [mem_orderBy,List.mem_reverse,mem_newestFirst]
  simp [ofPair]

theorem newestFirst_delete (s : ColdStore) (del : EventRow → Bool) (p : Pair) :
    newestFirst { s with events := s.events.delete del } p =
      (s.newestFirst p).filter fun r => !del r := by
  have hsub : ((s.events.rows.filter (ofPair p)).map EventRow.age).Nodup :=
    s.nodup_ages.sublist (List.filter_sublist.map _)
  rw [newestFirst,newestFirst,KeyTable.rows_delete,List.filter_filter,
    ← orderBy_filter EventRow.age hsub,List.filter_filter]
  congr 2
  funext r
  rw [Bool.and_comm]

/-- `s'` is `s` with the log of one pair cut to its `j` newest rows. -/
structure Cut (s : ColdStore) (p : Pair) (j : ℕ) (s' : ColdStore) : Prop where
  latest : s'.latest = s.latest
  sublist : s'.events.rows.Sublist s.events.rows
  self : s'.newestFirst p = (s.newestFirst p).take j
  other : ∀ q, q ≠ p → s'.newestFirst q = s.newestFirst q

theorem Cut.refl (s : ColdStore) (p : Pair) {j : ℕ} (hj : s.countForPair p ≤ j) : s.Cut p j s :=
  ⟨rfl,.refl _,(List.take_of_length_le (by rwa [length_newestFirst])).symm,fun _ _ => rfl⟩

theorem Cut.trans {s'' : ColdStore} {j k : ℕ} (h : s.Cut p j s') (h' : s'.Cut p k s'') :
    s.Cut p (min k j) s'' :=
  ⟨h'.latest.trans h.latest,h'.sublist.trans h.sublist,
    by rw [h'.self,h.self,List.take_take],
    fun q hq => (h'.other q hq).trans (h.other q hq)⟩

theorem Cut.countForPair {j : ℕ} (h : s.Cut p j s') :
    s'.countForPair p = min j (s.countForPair p) := by
  rw [← length_newestFirst,h.self,List.length_take,length_newestFirst]

/-- The logs of several pairs are cut, those of all others are as before. -/
structure CutAll (s : ColdStore) (j : Pair → ℕ) (pairs : List Pair) (s' : ColdStore) : Prop where
  latest : s'.latest = s.latest
  sublist : s'.events.rows.Sublist s.events.rows
  mem : ∀ p ∈ pairs, s'.newestFirst p = (s.newestFirst p).take (j p)
  notMem : ∀ p, p ∉ pairs → s'.newestFirst p = s.newestFirst p

theorem CutAll.nil (s : ColdStore) (j : Pair → ℕ) : s.CutAll j [] s :=
  ⟨rfl,.refl _,by simp,fun _ _ => rfl⟩

theorem Cut.cons {s'' : ColdStore} {j j' : Pair → ℕ} {pairs : List Pair} (h : s.Cut p (j p) s')
    (hp : p ∉ pairs) (hrest : s'.CutAll j' pairs s'') (hj : ∀ q ∈ pairs, j' q = j q) :
    s.CutAll j (p::pairs) s'' := by
  refine ⟨hrest.latest.trans h.latest,hrest.sublist.trans h.sublist,fun q hq => ?_,fun q hq => ?_⟩
  · rcases List.mem_cons.mp hq with rfl | hq
    · rw [hrest.notMem q hp,h.self]
    · rw [hrest.mem q hq,hj q hq,h.other q fun hqp => hp (hqp ▸ hq)]
  · obtain ⟨hne,hq⟩ : q ≠ p ∧ q ∉ pairs := by simpa using hq
    rw [hrest.notMem q hq,h.other q hne]

/-- Deleting by a test that only rows of `p` meet, and among them all but the `j` newest. -/
theorem Cut.of_delete {del : EventRow → Bool} {j : ℕ} (hpair : ∀ r ∈ s.events.rows,
      del r = true → r.pair = p)
    (hself : (s.newestFirst p).filter (fun r => !del r) = (s.newestFirst p).take j) :
    s.Cut p j { s with events := s.events.delete del } := by
  refine ⟨rfl,List.filter_sublist,by rw [newestFirst_delete,hself],fun q hq => ?_⟩
  rw [newestFirst_delete,List.filter_eq_self]
  intro r hr
  obtain ⟨hrow,hrq⟩ := mem_newestFirst.mp hr
  cases hdel : del r with
  | false => rfl
  | true => exact absurd (hrq.symm.trans (hpair r hrow hdel)) hq

/-- Rows of `p` that are not older than the cutoff. -/
def keptByAge (cutoffMs : Int64) (l : List EventRow) : ℕ := l.countP fun r => cutoffMs ≤ r.tsMsUtc

theorem countOlder_eq (s : ColdStore) (p : Pair) (cutoffMs : Int64) :
    s.countOlder p cutoffMs = s.countForPair p-keptByAge cutoffMs (s.newestFirst p) := by
  have hsplit := List.length_eq_countP_add_countP (fun r : EventRow => decide (cutoffMs ≤ r.tsMsUtc))
    (l := s.newestFirst p)
  have holder : s.countOlder p cutoffMs =
      (s.newestFirst p).countP fun r => decide (¬ decide (cutoffMs ≤ r.tsMsUtc) = true) := by
    rw [(s.newestFirst_perm p).countP_eq,countOlder,List.countP_filter]
    apply List.countP_congr
    intro r _
    simp [and_comm]
  rw [length_newestFirst] at hsplit
  rw [keptByAge,holder]
  omega

theorem sweepMaxAge_cut (s : ColdStore) (p : Pair) (cutoffMs : Int64) :
    s.Cut p (keptByAge cutoffMs (s.newestFirst p)) (s.sweepMaxAge p cutoffMs false).2 := by
  refine Cut.of_delete (fun r _ hdel => ?_) ?_
  · simpa [ofPair] using (Bool.and_eq_true_iff.mp hdel).1
  · rw [keptByAge,← filter_eq_take]
    · apply List.filter_congr
      intro r hr
      have hpair := (mem_newestFirst.mp hr).2
      rw [show ofPair p r = true by simpa [ofPair] using hpair,Bool.true_and]
      by_cases h : r.tsMsUtc < cutoffMs
      · simp [h]
      · simp [not_lt.mp h,h]
    · exact (s.newestFirst_ts p).imp fun hle hb => by
        simp only [decide_eq_true_eq] at hb ⊢
        exact hb.trans hle

/-- Dropping the rows behind the first `j`, by their keys. -/
theorem filter_notMem_drop {ρ κ : Type} [DecidableEq κ] {key : ρ → κ} {l : List ρ}
    (hnd : (l.map key).Nodup) (j : ℕ) :
    l.filter (fun r => !decide (key r ∈ (l.drop j).map key)) = l.take j := by
  have hsplit : l.take j ++ l.drop j = l := List.take_append_drop j l
  have hdisj : ∀ r ∈ l.take j, key r ∉ (l.drop j).map key := by
    intro r hr hmem
    rw [← hsplit,List.map_append,List.nodup_append] at hnd
    exact hnd.2.2 (key r) (List.mem_map_of_mem hr) (key r) hmem rfl
  have hfront : (l.take j).filter (fun r => !decide (key r ∈ (l.drop j).map key)) = l.take j :=
    List.filter_eq_self.mpr fun r hr => by simp only [hdisj r hr,decide_false,Bool.not_false]
  have hback : (l.drop j).filter (fun r => !decide (key r ∈ (l.drop j).map key)) = [] :=
    List.filter_eq_nil_iff.mpr fun r hr => by
      simp only [List.mem_map_of_mem hr,decide_true,Bool.not_true,Bool.false_eq_true,not_false_eq_true]
  calc l.filter (fun r => !decide (key r ∈ (l.drop j).map key))
      = (l.take j ++ l.drop j).filter (fun r => !decide (key r ∈ (l.drop j).map key)) := by
        rw [hsplit]
    _ = l.take j := by rw [List.filter_append,hfront,hback,List.append_nil]

/-- The count of a delete by ids that are those of the rows behind the first `j`. -/
theorem deleteIds_cut (s : ColdStore) (p : Pair) {j : ℕ} (ids : List Ulid)
    (hids : ∀ i, i ∈ ids ↔ i ∈ ((s.newestFirst p).drop j).map (·.eventId)) :
    s.Cut p j (s.deleteIds ids).2 ∧ (s.deleteIds ids).1 = s.countForPair p-j := by
  have hpair : ∀ r ∈ s.events.rows, r.eventId ∈ ids ↔ r ∈ (s.newestFirst p).drop j := by
    intro r hr
    rw [hids]
    constructor
    · intro h
      obtain ⟨t,ht,hid⟩ := List.mem_map.mp h
      have htr := (mem_newestFirst.mp (List.mem_of_mem_drop ht)).1
      rwa [← s.events.eq_of_key htr hr hid]
    · exact fun h => List.mem_map_of_mem h
  constructor
  · refine Cut.of_delete (fun r hr hdel => ?_) ?_
    · have hmem := (hpair r hr).mp (by simpa using hdel)
      exact (mem_newestFirst.mp (List.mem_of_mem_drop hmem)).2
    · rw [← filter_notMem_drop (s.nodup_newestFirst_ids p) j]
      apply List.filter_congr
      intro r _
      simp only [hids]
  · have hdrop : (s.events.rows.filter fun r => r.eventId ∈ ids).Perm ((s.newestFirst p).drop j) := by
      refine (List.perm_ext_iff_of_nodup (s.events.nodup.of_map.filter _)
        ((s.nodup_newestFirst_ids p).of_map.sublist (List.drop_sublist _ _))).mpr fun r => ?_
      rw [List.mem_filter,decide_eq_true_eq]
      constructor
      · exact fun h => (hpair r h.1).mp h.2
      · intro h
        have hrow := (mem_newestFirst.mp (List.mem_of_mem_drop h)).1
        exact ⟨hrow,(hpair r hrow).mpr h⟩
    have hlen := hdrop.length_eq
    rw [List.length_drop,length_newestFirst] at hlen
    rw [deleteIds,List.countP_eq_length_filter,hlen]

theorem sweepMaxCount_cut (s : ColdStore) (p : Pair) (keepLast : Int64) :
    s.Cut p (s.countForPair p-dropCount keepLast (s.countForPair p))
        (s.sweepMaxCount p keepLast false).2 ∧
      (s.sweepMaxCount p keepLast false).1 =
        min (dropCount keepLast (s.countForPair p)) (s.countForPair p) := by
  simp only [sweepMaxCount,Bool.false_or,decide_eq_true_eq]
  split
  next hzero =>
    rw [hzero]
    exact ⟨Cut.refl s p (by omega),by omega⟩
  next =>
    generalize dropCount keepLast (s.countForPair p) = d
    obtain ⟨hcut,hcount⟩ := s.deleteIds_cut p (j := s.countForPair p-d)
      (((s.oldestFirst p).take d).map fun r => r.eventId) fun i => by
        rw [oldestFirst_eq,List.take_reverse,length_newestFirst,List.map_reverse,List.mem_reverse]
    exact ⟨hcut,by rw [hcount]; omega⟩

end ColdStore

/-- The newest rows that fit into the budget, from a running total on. -/
def fitting (maxBytes : Int64) : ℕ → List EventRow → ℕ
  | _, [] => 0
  | running, r::rows =>
    let running := min (running+r.length) (2^63-1)
    if maxBytes.toInt < running then 0 else fitting maxBytes running rows+1

namespace ColdStore

/-- Above the budget the loop stays above it. -/
theorem toDrop_of_over {maxBytes : Int64} {running : ℕ} (hover : maxBytes.toInt < running)
    (hmax : running ≤ 2^63-1) (l : List EventRow) : toDrop maxBytes running l = l := by
  induction l generalizing running with
  | nil => rfl
  | cons r l ih =>
    have hgrow : running ≤ min (running+r.length) (2^63-1) := le_min (by omega) hmax
    have hover' : maxBytes.toInt < (min (running+r.length) (2^63-1) : ℕ) :=
      hover.trans_le (by exact_mod_cast hgrow)
    simp only [toDrop,hover',if_true]
    rw [ih hover' (min_le_right _ _)]

theorem toDrop_eq (maxBytes : Int64) (running : ℕ) (l : List EventRow) :
    toDrop maxBytes running l = l.drop (fitting maxBytes running l) := by
  induction l generalizing running with
  | nil => rfl
  | cons r l ih =>
    simp only [toDrop,fitting]
    split
    next hover => rw [toDrop_of_over hover (min_le_right _ _),List.drop_zero]
    next => rw [ih,List.drop_succ_cons]

theorem fitting_le (maxBytes : Int64) (running : ℕ) (l : List EventRow) :
    fitting maxBytes running l ≤ l.length := by
  induction l generalizing running with
  | nil => exact le_rfl
  | cons r l ih =>
    simp only [fitting]
    split
    · exact Nat.zero_le _
    · exact Nat.succ_le_succ (ih _)

theorem fitting_take (maxBytes : Int64) (running j : ℕ) (l : List EventRow) :
    fitting maxBytes running (l.take j) = min (fitting maxBytes running l) j := by
  induction l generalizing running j with
  | nil => simp [fitting]
  | cons r l ih =>
    cases j with
    | zero => simp [fitting]
    | succ j =>
      simp only [List.take_succ_cons,fitting]
      split
      · simp
      · rw [ih]
        omega

/-- Rows of `p` that fit into the byte budget. -/
def keptByBytes (maxBytes : Int64) (l : List EventRow) : ℕ := fitting maxBytes 0 l

theorem sweepMaxBytes_dry (s : ColdStore) (p : Pair) (maxBytes : Int64) :
    s.sweepMaxBytes p maxBytes true =
      .ok (s.countForPair p-keptByBytes maxBytes (s.newestFirst p),s) := by
  simp [sweepMaxBytes,toDrop_eq,keptByBytes,length_newestFirst]

/-- With more rows to drop than a statement has variables the sweep of this dimension fails. -/
theorem sweepMaxBytes_real (s : ColdStore) (p : Pair) (maxBytes : Int64) :
    if sqliteMaxVariables < s.countForPair p-keptByBytes maxBytes (s.newestFirst p) then
      s.sweepMaxBytes p maxBytes false = .error (.sqlite "too many SQL variables")
    else ∃ s', s.sweepMaxBytes p maxBytes false =
        .ok (s.countForPair p-keptByBytes maxBytes (s.newestFirst p),s') ∧
      s.Cut p (keptByBytes maxBytes (s.newestFirst p)) s' := by
  have hids : toDrop maxBytes 0 (s.newestFirst p) =
      (s.newestFirst p).drop (keptByBytes maxBytes (s.newestFirst p)) := toDrop_eq _ _ _
  have hlen : ((s.newestFirst p).drop (keptByBytes maxBytes (s.newestFirst p))).length =
      s.countForPair p-keptByBytes maxBytes (s.newestFirst p) := by
    rw [List.length_drop,length_newestFirst]
  have hle : keptByBytes maxBytes (s.newestFirst p) ≤ s.countForPair p :=
    (fitting_le _ _ _).trans_eq (s.length_newestFirst p)
  generalize keptByBytes maxBytes (s.newestFirst p) = j at hids hlen hle ⊢
  simp only [sweepMaxBytes,hids,Bool.false_eq_true,if_false,List.length_map,hlen]
  split
  next hmany =>
    rw [if_neg]
    intro hempty
    have hnil : (s.newestFirst p).drop j = [] := by simpa using hempty
    rw [hnil,List.length_nil] at hlen
    omega
  next hfew =>
    split
    next hempty =>
      have hnone : s.countForPair p-j = 0 := by
        rw [← hlen,List.length_eq_zero_iff]
        simpa using hempty
      exact ⟨s,by rw [hnone],Cut.refl s p (by omega)⟩
    next =>
      obtain ⟨hcut,hcount⟩ := s.deleteIds_cut p (j := j) _ fun i => Iff.rfl
      exact ⟨_,by rw [← hcount],hcut⟩

end ColdStore

end Percept
