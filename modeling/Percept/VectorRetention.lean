import Percept.Lib.Runs
import Percept.RetentionLaw
import Percept.SweepSpec

/-! `vector_max_age` over whole histories. A sweep takes its pairs from the event log alone, and
stops where the byte bound of a pair fails; vectors of other pairs are not looked at. -/
namespace Percept

open ColdStore

def InMemoryRow.pair (r : InMemoryRow) : Pair := (r.sourceId,r.kind)

/-- The rows that searches read, none without an index. -/
def vectorRows (vector : Option VectorIndex) : List InMemoryRow := (vector.map VectorIndex.rows).getD []

section Pruning

variable (policies : List RetentionPolicy) (nowMs : Int64)

/-- Older than its pair allows, as the difference of two integers. -/
def Stale (r : InMemoryRow) : Prop :=
  ∃ vmax, (effOf policies r.pair).vectorMaxAgeMs = some vmax ∧
    r.tsMsUtc.toInt < nowMs.toInt-vmax.toInt

/-- The pairs whose vectors are pruned: up to the first where the byte bound fails. -/
def prunedPairs (st : Stores) : List Pair → List Pair
  | [] => []
  | p::pairs => if Deletable policies nowMs st p then p::prunedPairs st pairs else []

variable {policies nowMs} {st st' : Stores} {p : Pair}

theorem older_iff_stale {r : InMemoryRow} {vmax : Int64}
    (hvmax : (effOf policies r.pair).vectorMaxAgeMs = some vmax) :
    VectorIndex.older r.pair (saturatingSub nowMs vmax) r = true ↔ Stale policies nowMs r := by
  have hnonneg := vectorMaxAgeMs_nonneg hvmax
  simp only [VectorIndex.older,InMemoryRow.pair,decide_true,Bool.true_and,decide_eq_true_eq,
    lt_saturatingSub_iff hnonneg]
  constructor
  · exact fun h => ⟨vmax,hvmax,h⟩
  · rintro ⟨_,h,hlt⟩
    obtain rfl := Option.some.inj (hvmax.symm.trans h)
    exact hlt

theorem pair_of_older {r : InMemoryRow} {c : Int64} (h : VectorIndex.older p c r = true) : r.pair = p := by
  have hboth : (r.sourceId = p.1 ∧ r.kind = p.2) ∧ r.tsMsUtc < c := by simpa [VectorIndex.older] using h
  exact Prod.ext hboth.1.1 hboth.1.2

/-- The vector step takes the stale vectors of its pair. -/
theorem mem_vectorStep (vector : Option VectorIndex) (r : InMemoryRow) :
    r ∈ vectorRows (vectorStep p (effOf policies p) nowMs false vector).2 ↔
      r ∈ vectorRows vector ∧ ¬(r.pair = p ∧ Stale policies nowMs r) := by
  cases vector with
  | none => simp [vectorRows,vectorStep]
  | some idx =>
    cases hvmax : (effOf policies p).vectorMaxAgeMs with
    | none =>
      simp only [vectorStep,hvmax]
      refine (and_iff_left ?_).symm
      rintro ⟨rfl,vmax,h,_⟩
      rw [hvmax] at h
      cases h
    | some vmax =>
      have hrows : r ∈ vectorRows (vectorStep p (effOf policies p) nowMs false (some idx)).2 ↔
          r ∈ idx.rows ∧ VectorIndex.older p (saturatingSub nowMs vmax) r = false := by
        simp [vectorStep,hvmax,vectorRows,VectorIndex.sweepMaxAge]
      rw [hrows]
      refine and_congr_right fun _ => ?_
      rw [← Bool.not_eq_true]
      refine not_congr ⟨fun h => ?_,?_⟩
      · obtain rfl := pair_of_older h
        exact ⟨rfl,(older_iff_stale hvmax).mp h⟩
      · rintro ⟨rfl,h⟩
        exact (older_iff_stale hvmax).mpr h

theorem prunedPairs_congr {pairs : List Pair}
    (h : ∀ p ∈ pairs, st'.cold.newestFirst p = st.cold.newestFirst p) :
    prunedPairs policies nowMs st' pairs = prunedPairs policies nowMs st pairs := by
  induction pairs with
  | nil => rfl
  | cons p pairs ih =>
    have hdel : Deletable policies nowMs st' p ↔ _ := deletable_congr (h p List.mem_cons_self)
    simp only [prunedPairs,hdel,ih fun q hq => h q (List.mem_cons_of_mem _ hq)]

/-- A pair without a policy is deletable and has no stale vectors. -/
theorem deletable_of_isEmpty (st : Stores) (h : (effOf policies p).isEmpty = true) :
    Deletable policies nowMs st p := by
  have hbytes : (effOf policies p).maxBytes = none := by
    simp only [EffectiveRetention.isEmpty,Bool.and_eq_true,Option.isNone_iff_eq_none] at h
    exact h.1.2
  simp [Deletable,lateBytes,overBytes,hbytes]

theorem not_stale_of_isEmpty {r : InMemoryRow} (h : (effOf policies r.pair).isEmpty = true) :
    ¬Stale policies nowMs r := by
  rintro ⟨vmax,hvmax,_⟩
  simp [EffectiveRetention.isEmpty,hvmax] at h

/-- What is left in the index: all but the stale vectors of the pruned pairs. -/
theorem mem_sweepPairs_vector {pairs : List Pair} (hnd : pairs.Nodup) (old : SweepReport) (st : Stores)
    (r : InMemoryRow) : r ∈ vectorRows (sweepPairs policies nowMs false pairs old st).2.vector ↔
      r ∈ vectorRows st.vector ∧
        ¬(r.pair ∈ prunedPairs policies nowMs st pairs ∧ Stale policies nowMs r) := by
  induction pairs generalizing old st with
  | nil => simp [sweepPairs,prunedPairs]
  | cons q pairs ih =>
    obtain ⟨hq,hpairs⟩ := List.nodup_cons.mp hnd
    simp only [sweepPairs,prunedPairs]
    split
    next hempty =>
      rw [ih hpairs,if_pos (deletable_of_isEmpty st hempty),List.mem_cons]
      refine and_congr_right fun _ => not_congr ⟨fun h => ⟨Or.inr h.1,h.2⟩,?_⟩
      rintro ⟨rfl | hr,hstale⟩
      · exact absurd hstale (not_stale_of_isEmpty hempty)
      · exact ⟨hr,hstale⟩
    next =>
      have hspec := sweepPair_real q (resolveEffective policies q.1 q.2) nowMs st
      split at hspec
      next hmany =>
        obtain ⟨e,cold,hst,_⟩ := hspec
        have hnot : ¬Deletable policies nowMs st q := not_le.mpr hmany
        simp [hst,hnot]
      next hfew =>
        obtain ⟨warnings,cold,hst,hcut⟩ := hspec
        have hdel : Deletable policies nowMs st q := not_lt.mp hfew
        rw [hst,if_pos hdel]
        simp only
        generalize hnext : Stores.mk cold _ = next
        have hcold : next.cold = cold := by rw [← hnext]
        have hvector : r ∈ vectorRows next.vector ↔
            r ∈ vectorRows st.vector ∧ ¬(r.pair = q ∧ Stale policies nowMs r) := by
          rw [← hnext]
          exact mem_vectorStep st.vector r
        have hother : ∀ p ∈ pairs, next.cold.newestFirst p = st.cold.newestFirst p :=
          fun p hp => hcold ▸ hcut.other p fun h => hq (h ▸ hp)
        rw [ih hpairs,hvector,prunedPairs_congr hother,List.mem_cons]
        tauto

theorem mem_distinctSourceKindPairs {s : ColdStore} :
    p ∈ s.distinctSourceKindPairs ↔ ∃ r ∈ s.events.rows, r.pair = p := by
  simp [distinctSourceKindPairs]

theorem mem_prunedPairs {pairs : List Pair} (hsorted : pairs.Pairwise fun a b => toLex a ≤ toLex b) :
    p ∈ prunedPairs policies nowMs st pairs ↔
      p ∈ pairs ∧ ∀ q ∈ pairs, toLex q ≤ toLex p → Deletable policies nowMs st q := by
  induction pairs with
  | nil => simp [prunedPairs]
  | cons q pairs ih =>
    obtain ⟨hq,hpairs⟩ := List.pairwise_cons.mp hsorted
    simp only [prunedPairs]
    split
    next hdel =>
      rw [List.mem_cons,ih hpairs]
      constructor
      · rintro (rfl | ⟨hp,hall⟩)
        · refine ⟨List.mem_cons_self,fun r hr hle => ?_⟩
          rcases List.mem_cons.mp hr with rfl | hr
          · exact hdel
          · exact toLex.injective (hle.antisymm (hq r hr)) ▸ hdel
        · refine ⟨List.mem_cons_of_mem q hp,fun r hr hle => ?_⟩
          rcases List.mem_cons.mp hr with rfl | hr
          · exact hdel
          · exact hall r hr hle
      · rintro ⟨hp,hall⟩
        rcases List.mem_cons.mp hp with rfl | hp
        · exact Or.inl rfl
        · exact Or.inr ⟨hp,fun r hr => hall r (List.mem_cons_of_mem q hr)⟩
    next hnot =>
      refine iff_of_false List.not_mem_nil fun ⟨hp,hall⟩ => hnot (hall q List.mem_cons_self ?_)
      rcases List.mem_cons.mp hp with rfl | hp
      · exact le_rfl
      · exact hq p hp

theorem sorted_distinctSourceKindPairs (s : ColdStore) :
    s.distinctSourceKindPairs.Pairwise fun a b => toLex a ≤ toLex b := by
  have : Std.Total fun a b : Pair => toLex a ≤ toLex b := ⟨fun _ _ => le_total _ _⟩
  have : IsTrans Pair fun a b => toLex a ≤ toLex b := ⟨fun _ _ _ => le_trans⟩
  exact List.pairwise_insertionSort _ _

end Pruning

section Histories

/-- After a real sweep no vector is left that is too old for its pair. -/
def VectorsEnforced (st : Stores) : StoreOp → Prop
  | .sweep policies nowMs false =>
    ∀ r ∈ vectorRows (sweep policies nowMs false st).2.vector, ¬Stale policies nowMs r
  | _ => True

/-- The sweep gets to the pair of every vector that is too old: the log has an event of the pair,
and no byte bound fails for a pair up to it. -/
def Reaches (st : Stores) : StoreOp → Prop
  | .sweep policies nowMs false => ∀ r ∈ vectorRows st.vector, Stale policies nowMs r →
      (∃ e ∈ st.cold.events.rows, e.pair = r.pair) ∧
        ∀ e ∈ st.cold.events.rows, toLex e.pair ≤ toLex r.pair → Deletable policies nowMs st e.pair
  | _ => True

theorem vectorsEnforced_iff (st : Stores) (op : StoreOp) : VectorsEnforced st op ↔ Reaches st op := by
  rcases op with _ | _ | ⟨policies,nowMs,dryRun⟩
  · exact Iff.rfl
  · exact Iff.rfl
  cases dryRun with
  | true => exact Iff.rfl
  | false =>
    have hleft : ∀ r, r ∈ vectorRows (sweep policies nowMs false st).2.vector ↔ _ :=
      mem_sweepPairs_vector (nodup_distinctSourceKindPairs st.cold) ⟨[],0,0,[],false⟩ st
    have hpruned : ∀ p, p ∈ prunedPairs policies nowMs st st.cold.distinctSourceKindPairs ↔
        (∃ e ∈ st.cold.events.rows, e.pair = p) ∧
          ∀ e ∈ st.cold.events.rows, toLex e.pair ≤ toLex p → Deletable policies nowMs st e.pair := by
      intro p
      rw [mem_prunedPairs (sorted_distinctSourceKindPairs st.cold)]
      simp [mem_distinctSourceKindPairs]
    simp only [VectorsEnforced,Reaches,hleft,hpruned]
    constructor
    · intro h r hr hstale
      by_contra hnot
      exact h r ⟨hr,fun hboth => hnot hboth.1⟩ hstale
    · rintro h r ⟨hr,hnot⟩ hstale
      exact hnot ⟨h r hr hstale,hstale⟩

/-- Over a history of appends and sweeps each sweep enforces `vector_max_age` exactly when it gets
to the pairs of all vectors that are too old. -/
theorem vector_max_age_enforced_iff (ops : List StoreOp) :
    Runs.EachStep Stores.apply VectorsEnforced Stores.openInMemory ops ↔
      Runs.EachStep Stores.apply Reaches Stores.openInMemory ops :=
  Runs.eachStep_congr vectorsEnforced_iff ops

/-- A frame whose event the cold store never had, four seconds past its age. -/
theorem vector_max_age_not_enforced :
    ¬Runs.EachStep Stores.apply VectorsEnforced Stores.openInMemory
      [.appendVectors [⟨⟨1,"cam","frame",0,false,[7]⟩,"m"⟩],
        .sweep [{ matchKind := some "frame", vectorMaxAge := some (.fromSecs 1) }] 5000 false] := by
  rintro ⟨_,h,_⟩
  exact h ⟨1,"cam","frame",0,false,[7]⟩ (by decide) ⟨1000,by decide,by decide⟩

end Histories

end Percept
