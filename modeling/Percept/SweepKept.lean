import Percept.DryRun
import Percept.LatestTable
import Percept.RetentionLaw
import Percept.VectorRetention

/-! What a real sweep leaves: of each pair the longest newest-first run that meets all of its
bounds at once. -/
namespace Percept

open OrderBy ColdStore

/-- `LENGTH(semantic)` summed up. -/
def totalChars (run : List EventRow) : ℕ := (run.map (·.length)).sum

/-- A run of rows that is within every bound. -/
structure WithinBounds (eff : EffectiveRetention) (nowMs : Int64) (run : List EventRow) : Prop where
  age : ∀ maxAgeMs, eff.maxAgeMs = some maxAgeMs →
    ∀ r ∈ run, nowMs.toInt-maxAgeMs.toInt ≤ r.tsMsUtc.toInt
  count : ∀ maxCount, eff.maxCount = some maxCount → (run.length : ℤ) ≤ maxCount.toInt
  bytes : ∀ maxBytes, eff.maxBytes = some maxBytes →
    (totalChars run : ℤ) ≤ maxBytes.toInt

/-- The longest front part of a log that is within every bound. -/
structure IsLongestRun (eff : EffectiveRetention) (nowMs : Int64) (log run : List EventRow) :
    Prop where
  front : run <+: log
  within : WithinBounds eff nowMs run
  longest : ∀ run', run' <+: log → WithinBounds eff nowMs run' → run'.length ≤ run.length

/-- A SQLite database is smaller than `2^48` bytes: counts and sums over it are within `i64`. -/
structure SqlCountable (log : List EventRow) : Prop where
  rows : log.length < 2^63
  chars : totalChars log < 2^63

/-- A log as the store gives it, under bounds that are not negative. -/
structure Regular (eff : EffectiveRetention) (l : List EventRow) : Prop where
  newestFirst : l.Pairwise fun a b => b.tsMsUtc ≤ a.tsMsUtc
  age : ∀ ms, eff.maxAgeMs = some ms → 0 ≤ ms.toInt
  count : ∀ n, eff.maxCount = some n → 0 ≤ n.toInt
  bytes : ∀ n, eff.maxBytes = some n → 0 ≤ n.toInt
  countable : SqlCountable l

section Bounds

variable {eff : EffectiveRetention} {nowMs : Int64} {l : List EventRow} {k : ℕ}

theorem SqlCountable.sublist {l' : List EventRow} (h : SqlCountable l) (hsub : l'.Sublist l) :
    SqlCountable l' :=
  ⟨hsub.length_le.trans_lt h.rows,(List.Sublist.sum_le_sum (hsub.map _) (by simp)).trans_lt h.chars⟩

theorem Regular.front {l' : List EventRow} (h : Regular eff l) (hfront : l' <+: l) : Regular eff l' :=
  ⟨h.newestFirst.sublist hfront.sublist,h.age,h.count,h.bytes,h.countable.sublist hfront.sublist⟩

/-- A front part is young enough when it is not longer than what `max_age` leaves. -/
theorem le_leftByAge_iff (h : Regular eff l) (hk : k ≤ l.length) :
    k ≤ leftByAge eff nowMs l ↔ ∀ maxAgeMs, eff.maxAgeMs = some maxAgeMs →
      ∀ r ∈ l.take k, nowMs.toInt-maxAgeMs.toInt ≤ r.tsMsUtc.toInt := by
  unfold leftByAge overAge
  cases hms : eff.maxAgeMs with
  | none => simpa using hk
  | some ms =>
    have hcut : ∀ r : EventRow, saturatingSub nowMs ms ≤ r.tsMsUtc ↔
        nowMs.toInt-ms.toInt ≤ r.tsMsUtc.toInt := by
      intro r
      rw [← not_lt,lt_saturatingSub_iff (h.age ms hms),not_lt]
    have hle : keptByAge (saturatingSub nowMs ms) l ≤ l.length := List.countP_le_length
    simp only [Option.some.injEq,forall_eq']
    rw [Nat.sub_sub_self hle]
    simp only [← hcut]
    exact (le_countP_iff (h.newestFirst.imp fun {a b} hab hb => by
      simp only [decide_eq_true_eq] at hb ⊢
      exact hb.trans hab) hk).trans (by simp only [decide_eq_true_eq])

/-- The difference that `max_count` drops by does not wrap. -/
theorem dropCount_eq {maxCount : Int64} (hcount : 0 ≤ maxCount.toInt) {n : ℕ} (hn : n < 2^63) :
    dropCount maxCount n = n-maxCount.toInt.toNat := by
  have hlt := maxCount.toInt_lt
  have hsub : (Int64.ofNat n-maxCount).toInt = n-maxCount.toInt := by
    rw [Int64.toInt_sub,Int64.toInt_ofNat_of_lt hn]
    exact Int.bmod_eq_of_le (by norm_num; omega) (by norm_num; omega)
  have hclamp : (max (Int64.ofNat n-maxCount) 0).toInt = max (n-maxCount.toInt) 0 := by
    rcases le_total (Int64.ofNat n-maxCount) 0 with hle | hle
    · rw [max_eq_right hle]
      rw [Int64.le_iff_toInt_le,hsub] at hle
      exact (max_eq_right hle).symm
    · rw [max_eq_left hle,hsub]
      rw [Int64.le_iff_toInt_le,hsub] at hle
      exact (max_eq_left hle).symm
  rw [dropCount,Int64.toNatClampNeg,hclamp]
  omega

theorem le_leftByCount_iff (h : Regular eff l) :
    k ≤ leftByCount eff nowMs l ↔ k ≤ leftByAge eff nowMs l ∧
      ∀ maxCount, eff.maxCount = some maxCount → (k : ℤ) ≤ maxCount.toInt := by
  have hage : leftByAge eff nowMs l ≤ l.length := Nat.sub_le _ _
  unfold leftByCount overCount
  cases hn : eff.maxCount with
  | none => simp
  | some n =>
    have hnonneg := h.count n hn
    simp only [Option.some.injEq,forall_eq']
    rw [dropCount_eq hnonneg (hage.trans_lt h.countable.rows)]
    omega

/-- The rows that fit into the budget, as the loop counts them. -/
theorem le_keptByBytes_iff {maxBytes : Int64} (hbytes : 0 ≤ maxBytes.toInt) (hl : SqlCountable l)
    (hk : k ≤ l.length) : k ≤ keptByBytes maxBytes l ↔
      (totalChars (l.take k) : ℤ) ≤ maxBytes.toInt := by
  cases k with
  | zero => simpa [totalChars] using hbytes
  | succ i =>
    have hsum : totalChars (l.take (i+1)) < 2^63 := (hl.sublist (List.take_sublist _ _)).chars
    rw [Nat.succ_le_iff,keptByBytes,lt_fitting_iff _ _ _ _ hk,Nat.zero_add,← totalChars]
    omega

/-- Rows that all three bounds leave, when the byte bound can delete. -/
def leftByAll (eff : EffectiveRetention) (nowMs : Int64) (l : List EventRow) : ℕ :=
  leftByCount eff nowMs l-lateBytes eff nowMs l

theorem le_leftByAll_iff (h : Regular eff l) (hk : k ≤ l.length) :
    k ≤ leftByAll eff nowMs l ↔ WithinBounds eff nowMs (l.take k) := by
  have hlate : lateBytes eff nowMs l = leftByCount eff nowMs l-(l.length-overBytes eff l) :=
    overBytes_take l (leftByCount_le eff nowMs l)
  have hsplit : k ≤ leftByAll eff nowMs l ↔
      k ≤ leftByCount eff nowMs l ∧ k ≤ l.length-overBytes eff l := by
    rw [leftByAll,hlate]
    omega
  have hover : k ≤ l.length-overBytes eff l ↔ ∀ maxBytes, eff.maxBytes = some maxBytes →
      (totalChars (l.take k) : ℤ) ≤ maxBytes.toInt := by
    unfold overBytes
    cases hn : eff.maxBytes with
    | none => simpa using hk
    | some n =>
      have hle : keptByBytes n l ≤ l.length := fitting_le _ _ _
      simp only [Option.some.injEq,forall_eq']
      rw [Nat.sub_sub_self hle,le_keptByBytes_iff (h.bytes n hn) h.countable hk]
  rw [hsplit,le_leftByCount_iff h,le_leftByAge_iff h hk,hover]
  have hlen : (l.take k).length = k := List.length_take_of_le hk
  constructor
  · rintro ⟨⟨hage',hcount'⟩,hbytes'⟩
    exact ⟨hage',by rwa [hlen],hbytes'⟩
  · intro hwithin
    exact ⟨⟨hwithin.age,by simpa [hlen] using hwithin.count⟩,hwithin.bytes⟩

theorem leftByAll_le (eff : EffectiveRetention) (nowMs : Int64) (l : List EventRow) :
    leftByAll eff nowMs l ≤ l.length :=
  (Nat.sub_le _ _).trans (leftByCount_le eff nowMs l)

theorem realDrop_add_leftByAll (eff : EffectiveRetention) (nowMs : Int64) (l : List EventRow) :
    realDrop eff nowMs l+leftByAll eff nowMs l = l.length := by
  have hage := overAge_le eff nowMs l
  have hbytes : lateBytes eff nowMs l ≤ leftByCount eff nowMs l :=
    (overBytes_le eff _).trans (List.length_take_le _ _)
  unfold realDrop leftByAll
  unfold leftByCount at hbytes ⊢
  unfold leftByAge at hbytes ⊢
  omega

theorem isLongestRun_take (h : Regular eff l) (nowMs : Int64) :
    IsLongestRun eff nowMs l (l.take (leftByAll eff nowMs l)) := by
  refine ⟨List.take_prefix _ _,?_,fun run hfront hwithin => ?_⟩
  · exact (le_leftByAll_iff h (leftByAll_le eff nowMs l)).mp le_rfl
  · rw [List.length_take_of_le (leftByAll_le eff nowMs l)]
    refine (le_leftByAll_iff h hfront.length_le).mpr ?_
    rwa [← List.prefix_iff_eq_take.mp hfront]

/-- Nothing more is dropped from a log within the bounds. -/
theorem leftByAll_of_within (h : Regular eff l) (hwithin : WithinBounds eff nowMs l) :
    leftByAll eff nowMs l = l.length := by
  refine (leftByAll_le eff nowMs l).antisymm ?_
  rw [le_leftByAll_iff h le_rfl,List.take_length]
  exact hwithin

theorem leftByAll_of_isEmpty (h : eff.isEmpty = true) : leftByAll eff nowMs l = l.length := by
  simp only [EffectiveRetention.isEmpty,Bool.and_eq_true,Option.isNone_iff_eq_none] at h
  obtain ⟨⟨⟨hage,hcount⟩,hbytes⟩,_⟩ := h
  simp [leftByAll,lateBytes,leftByCount,leftByAge,overAge,overCount,overBytes,hage,hcount,hbytes]

end Bounds

section Sweep

variable {policies : List RetentionPolicy} {nowMs : Int64} {st st' : Stores} {p : Pair}

/-- Every row has one key. -/
theorem sum_countP_key {ρ κ : Type} [DecidableEq κ] (key : ρ → κ) {keys : List κ} (hnd : keys.Nodup)
    {rows : List ρ} (hcover : ∀ r ∈ rows, key r ∈ keys) :
    (keys.map fun k => rows.countP fun r => key r = k).sum = rows.length := by
  have hcount : ∀ k, (rows.countP fun r => key r = k) = Multiset.count k (rows.map key : List κ) := by
    intro k
    rw [Multiset.coe_count,List.count_eq_countP,List.countP_map]
    exact List.countP_congr fun r _ => by simp
  rw [← List.sum_toFinset _ hnd]
  simp only [hcount]
  rw [Multiset.sum_count_eq_card]
  · simp
  · simpa using hcover

theorem sum_bound (f : Pair → ℕ) (hf : ∀ p, (effOf policies p).isEmpty = true → f p = 0)
    (pairs : List Pair) : ((bound policies pairs).map f).sum = (pairs.map f).sum := by
  induction pairs with
  | nil => rfl
  | cons p pairs ih =>
    rw [bound_cons]
    split
    next hempty => rw [ih,List.map_cons,List.sum_cons,hf p hempty,Nat.zero_add]
    next => rw [List.map_cons,List.sum_cons,ih,List.map_cons,List.sum_cons]

theorem sweptPairs_eq_bound (hdel : ∀ p, Deletable policies nowMs st p) (pairs : List Pair) :
    sweptPairs policies nowMs st pairs = bound policies pairs := by
  induction pairs with
  | nil => rfl
  | cons p pairs ih => rw [sweptPairs,bound_cons,if_pos (hdel p),ih]

/-- A real sweep that can delete everything it has to. -/
theorem sweep_newestFirst (hdel : ∀ p, Deletable policies nowMs st p) (p : Pair) :
    (sweep policies nowMs false st).2.cold.newestFirst p =
      (st.cold.newestFirst p).take (leftByAll (effOf policies p) nowMs (st.cold.newestFirst p)) := by
  have hcut := sweepPairs_cut policies nowMs (nodup_distinctSourceKindPairs st.cold)
    ⟨[],0,0,[],false⟩ st
  rw [sweptPairs_eq_bound hdel] at hcut
  by_cases hp : p ∈ bound policies st.cold.distinctSourceKindPairs
  · have hkept : keptOf policies nowMs st p = leftByAll (effOf policies p) nowMs (st.cold.newestFirst p) :=
      if_neg (not_lt.mpr (hdel p))
    rw [← hkept]
    exact hcut.mem p hp
  · rw [List.take_of_length_le]
    · exact hcut.notMem p hp
    · by_cases hempty : (effOf policies p).isEmpty = true
      · exact (leftByAll_of_isEmpty hempty).ge
      · have hnone : st.cold.newestFirst p = [] := by
          refine List.eq_nil_iff_forall_not_mem.mpr fun r hr => hp ?_
          obtain ⟨hrow,hrp⟩ := mem_newestFirst.mp hr
          exact List.mem_filter.mpr ⟨mem_distinctSourceKindPairs.mpr ⟨r,hrow,hrp⟩,
            by simpa [effOf] using hempty⟩
        simp [hnone]

theorem sweep_sublist (policies : List RetentionPolicy) (nowMs : Int64) (st : Stores) :
    (sweep policies nowMs false st).2.cold.events.rows.Sublist st.cold.events.rows :=
  (sweepPairs_cut policies nowMs (nodup_distinctSourceKindPairs st.cold) ⟨[],0,0,[],false⟩ st).sublist

/-- The report of a real sweep adds up. -/
theorem sweep_report (hdel : ∀ p, Deletable policies nowMs st p) :
    ∃ report, (sweep policies nowMs false st).1 = .ok report ∧
      report.eventsDropped+(sweep policies nowMs false st).2.cold.events.rows.length =
        st.cold.events.rows.length ∧
      report.vectorsDropped = ((bound policies st.cold.distinctSourceKindPairs).map fun p =>
        overVectors (effOf policies p) nowMs p st.vector).sum := by
  have hnd := nodup_distinctSourceKindPairs st.cold
  obtain ⟨report,hok,hext⟩ := sweepPairs_real policies nowMs st.cold.distinctSourceKindPairs
    hnd ⟨[],0,0,[],false⟩ (fun p _ => SameFor.refl p st) fun p _ => hdel p
  refine ⟨report,hok,?_,?_⟩
  · have hcover : ∀ r ∈ st.cold.events.rows, r.pair ∈ st.cold.distinctSourceKindPairs :=
      fun r hr => mem_distinctSourceKindPairs.mpr ⟨r,hr,rfl⟩
    have hdrop : report.eventsDropped = (st.cold.distinctSourceKindPairs.map fun p =>
        realDrop (effOf policies p) nowMs (st.cold.newestFirst p)).sum := by
      rw [hext.eventsDropped,List.map_map,← sum_bound fun p => realDrop (effOf policies p) nowMs _]
      · exact Nat.zero_add _
      · intro p hempty
        have hsum := realDrop_add_leftByAll (effOf policies p) nowMs (st.cold.newestFirst p)
        rw [leftByAll_of_isEmpty hempty] at hsum
        omega
    rw [hdrop,← sum_countP_key _ hnd hcover,
      ← sum_countP_key _ hnd fun r hr => hcover r ((sweep_sublist policies nowMs st).subset hr),
      ← List.sum_map_add]
    refine congrArg List.sum (List.map_congr_left fun p _ => ?_)
    have hleft := length_newestFirst (sweep policies nowMs false st).2.cold p
    rw [sweep_newestFirst hdel,List.length_take_of_le (leftByAll_le _ _ _)] at hleft
    have hall := realDrop_add_leftByAll (effOf policies p) nowMs (st.cold.newestFirst p)
    rw [hleft,length_newestFirst] at hall
    exact hall
  · rw [hext.vectorsDropped,List.map_map]
    exact Nat.zero_add _

/-- Where the byte bound can delete, the stale vectors of all pairs in the log go. -/
theorem sweep_overVectors (hdel : ∀ p, Deletable policies nowMs st p)
    (hp : p ∈ st.cold.distinctSourceKindPairs) :
    overVectors (effOf policies p) nowMs p (sweep policies nowMs false st).2.vector = 0 := by
  have hleft : ∀ r, r ∈ vectorRows (sweep policies nowMs false st).2.vector ↔ _ :=
    mem_sweepPairs_vector (nodup_distinctSourceKindPairs st.cold) ⟨[],0,0,[],false⟩ st
  unfold overVectors
  split
  next idx vmax hidx hvmax =>
    refine List.countP_eq_zero.mpr fun r hr hold => ?_
    have hrow : r.toInMemoryRow ∈ vectorRows (sweep policies nowMs false st).2.vector := by
      rw [hidx]
      exact idx.mirror.mem_iff.mpr (List.mem_map_of_mem hr)
    obtain rfl := pair_of_older hold
    refine ((hleft _).mp hrow).2 ⟨?_,(older_iff_stale hvmax).mp hold⟩
    exact (mem_prunedPairs (sorted_distinctSourceKindPairs st.cold)).mpr ⟨hp,fun q _ _ => hdel q⟩
  next => rfl

theorem deletable_of_left (h : ∀ p, leftByAll (effOf policies p) nowMs (st.cold.newestFirst p) =
    (st.cold.newestFirst p).length) (p : Pair) : Deletable policies nowMs st p := by
  have hle := leftByCount_le (effOf policies p) nowMs (st.cold.newestFirst p)
  have hbytes : lateBytes (effOf policies p) nowMs (st.cold.newestFirst p) ≤
      leftByCount (effOf policies p) nowMs (st.cold.newestFirst p) :=
    (overBytes_le _ _).trans (List.length_take_le _ _)
  have hleft := h p
  unfold leftByAll at hleft
  unfold Deletable
  omega

/-- A log with no more rows than a statement has variables. -/
theorem deletable_of_few (h : st.cold.events.rows.length ≤ sqliteMaxVariables) (p : Pair) :
    Deletable policies nowMs st p := by
  refine (overBytes_le _ _).trans ((List.length_take_le' _ _).trans (le_trans ?_ h))
  rw [length_newestFirst]
  exact List.countP_le_length

theorem sweep_events_of_left (h : ∀ p, leftByAll (effOf policies p) nowMs (st.cold.newestFirst p) =
    (st.cold.newestFirst p).length) : (sweep policies nowMs false st).2.cold.events = st.cold.events := by
  have hsub := sweep_sublist policies nowMs st
  have hall : st.cold.events.rows ⊆ (sweep policies nowMs false st).2.cold.events.rows := by
    intro r hr
    have hlog : r ∈ st.cold.newestFirst r.pair := mem_newestFirst.mpr ⟨hr,rfl⟩
    rw [← List.take_length (l := st.cold.newestFirst r.pair),← h,
      ← sweep_newestFirst (deletable_of_left h)] at hlog
    exact (mem_newestFirst.mp hlog).1
  exact KeyTable.ext (hsub.eq_of_length_le (st.cold.events.nodup.of_map.subperm hall).length_le)

theorem regular_newestFirst (hcount : ∀ q ∈ policies, ∀ n, q.maxCount = some n → 0 ≤ n.toInt)
    (hbytes : ∀ q ∈ policies, ∀ n, q.maxBytes = some n → 0 ≤ n.toInt)
    (hsql : SqlCountable st.cold.events.rows) (p : Pair) :
    Regular (effOf policies p) (st.cold.newestFirst p) := by
  have hperm := st.cold.newestFirst_perm p
  have hpair := hsql.sublist (List.filter_sublist (p := ofPair p))
  refine ⟨st.cold.newestFirst_ts p,fun _ => maxAgeMs_nonneg,fun n hn => ?_,fun n hn => ?_,?_,?_⟩
  · obtain ⟨i,q,hq,_,hset,_⟩ := maxCount_iff.mp hn
    exact hcount q (List.mem_of_getElem? hq) n hset
  · obtain ⟨i,q,hq,_,hset,_⟩ := maxBytes_iff.mp hn
    exact hbytes q (List.mem_of_getElem? hq) n hset
  · exact hperm.length_eq ▸ hpair.rows
  · exact (hperm.map (·.length)).sum_eq.trans_lt hpair.chars

end Sweep

/-- A real sweep keeps of each pair the longest newest-first run within all of its bounds, its
report counts the rows it removed, and a second one finds nothing to do. -/
theorem sweep_keeps_newest (policies : List RetentionPolicy) (nowMs : Int64) (st : Stores)
    (hcount : ∀ q ∈ policies, ∀ n, q.maxCount = some n → 0 ≤ n.toInt)
    (hbytes : ∀ q ∈ policies, ∀ n, q.maxBytes = some n → 0 ≤ n.toInt)
    (hsql : SqlCountable st.cold.events.rows) (hdel : ∀ p, Deletable policies nowMs st p) :
    ∃ report st', sweep policies nowMs false st = (.ok report,st') ∧
      (∀ p, IsLongestRun (effOf policies p) nowMs (st.cold.newestFirst p) (st'.cold.newestFirst p)) ∧
      (∀ p, (effOf policies p).isEmpty = true → st'.cold.newestFirst p = st.cold.newestFirst p) ∧
      report.eventsDropped+st'.cold.events.rows.length = st.cold.events.rows.length ∧
      ∃ report' st'', sweep policies nowMs false st' = (.ok report',st'') ∧
        report'.eventsDropped = 0 ∧ report'.vectorsDropped = 0 ∧ st''.cold.events = st'.cold.events := by
  have hregular := regular_newestFirst hcount hbytes hsql
  have hrun : ∀ p, IsLongestRun (effOf policies p) nowMs (st.cold.newestFirst p)
      ((sweep policies nowMs false st).2.cold.newestFirst p) := by
    intro p
    rw [sweep_newestFirst hdel]
    exact isLongestRun_take (hregular p) nowMs
  obtain ⟨report,hok,hsum,_⟩ := sweep_report hdel
  refine ⟨report,(sweep policies nowMs false st).2,Prod.ext hok rfl,hrun,fun p hempty => ?_,hsum,?_⟩
  · rw [sweep_newestFirst hdel,leftByAll_of_isEmpty hempty,List.take_length]
  · generalize hst : (sweep policies nowMs false st).2 = st' at hrun
    -- what is left is within the bounds, so the second sweep leaves all of it
    have hleft : ∀ p, leftByAll (effOf policies p) nowMs (st'.cold.newestFirst p) =
        (st'.cold.newestFirst p).length := fun p =>
      leftByAll_of_within ((hregular p).front (hrun p).front) (hrun p).within
    have hsame := sweep_events_of_left hleft
    obtain ⟨report',hok',hsum',hvectors⟩ := sweep_report (deletable_of_left hleft)
    rw [hsame] at hsum'
    refine ⟨report',(sweep policies nowMs false st').2,Prod.ext hok' rfl,by omega,?_,hsame⟩
    rw [hvectors]
    refine List.sum_eq_zero fun n hn => ?_
    obtain ⟨p,hp,rfl⟩ := List.mem_map.mp hn
    obtain ⟨r,hr,hrp⟩ := mem_distinctSourceKindPairs.mp (List.mem_filter.mp hp).1
    rw [← hst] at hr ⊢
    exact sweep_overVectors hdel
      (mem_distinctSourceKindPairs.mpr ⟨r,(sweep_sublist policies nowMs st).subset hr,hrp⟩)

/-- Three rows of eight characters. -/
def crowded : Stores := Stores.openInMemory.apply (.append [.required 1 "s" "k" 1 (.string "abcdef"),
  .required 2 "s" "k" 2 (.string "abcdef"),.required 3 "s" "k" 2 (.string "abcdef")])

/-- Two rows, ten characters. -/
def tight : RetentionPolicy := { maxCount := some 2,maxBytes := some 10 }

theorem sweep_keeps_newest_crowded : ∃ report st',
    sweep [tight] 5 false crowded = (.ok report,st') ∧
      (∀ p, IsLongestRun (effOf [tight] p) 5 (crowded.cold.newestFirst p) (st'.cold.newestFirst p)) ∧
      (∀ p, (effOf [tight] p).isEmpty = true → st'.cold.newestFirst p = crowded.cold.newestFirst p) ∧
      report.eventsDropped+st'.cold.events.rows.length = crowded.cold.events.rows.length ∧
      ∃ report' st'', sweep [tight] 5 false st' = (.ok report',st'') ∧
        report'.eventsDropped = 0 ∧ report'.vectorsDropped = 0 ∧ st''.cold.events = st'.cold.events := by
  refine sweep_keeps_newest [tight] 5 crowded ?_ ?_ ⟨?_,?_⟩ (deletable_of_few (by decide))
  · rintro q hq n hn
    obtain rfl := List.mem_singleton.mp hq
    cases hn
    decide
  · rintro q hq n hn
    obtain rfl := List.mem_singleton.mp hq
    cases hn
    decide
  · exact lt_of_le_of_lt (b := 3) (by decide) (by norm_num)
  · exact lt_of_le_of_lt (b := 24) (by decide) (by norm_num)

example : ((sweep [tight] 5 false crowded).2.cold.events.rows.map fun r => r.eventId) = [3] := by
  decide

end Percept
