import Percept.SweepSpec

/-! Dry runs against real sweeps: exactly when the report of a dry run is the one that the
real sweep gives on the same state. -/
namespace Percept

/-- The numbers of a pair that a pass reads are the same in both states. -/
structure SameFor (p : Pair) (st st' : Stores) : Prop where
  cold : st'.cold.newestFirst p = st.cold.newestFirst p
  vectors : ∀ eff nowMs, overVectors eff nowMs p st'.vector = overVectors eff nowMs p st.vector

theorem SameFor.refl (p : Pair) (st : Stores) : SameFor p st st := ⟨rfl,fun _ _ => rfl⟩

theorem SameFor.trans {p : Pair} {st st' st'' : Stores} (h : SameFor p st st')
    (h' : SameFor p st' st'') : SameFor p st st'' :=
  ⟨h'.cold.trans h.cold,fun eff nowMs => (h'.vectors eff nowMs).trans (h.vectors eff nowMs)⟩

section Frame

variable {p q : Pair} {eff : EffectiveRetention} {nowMs : Int64}

theorem older_exclusive (hq : q ≠ p) {c c' : Int64} {r : InMemoryRow}
    (h : VectorIndex.older q c r = true) : VectorIndex.older p c' r = false := by
  have hpair : ∀ {p c}, VectorIndex.older p c r = true → p = (r.sourceId,r.kind) := by
    intro p c hp
    obtain ⟨⟨hs,hk⟩,_⟩ : (r.sourceId = p.1 ∧ r.kind = p.2) ∧ r.tsMsUtc < c := by
      simpa [VectorIndex.older] using hp
    exact Prod.ext hs.symm hk.symm
  by_contra hp
  exact hq ((hpair h).trans (hpair (by simpa using hp)).symm)

/-- The vectors of another pair are not touched. -/
theorem overVectors_vectorStep (hq : q ≠ p) (vector : Option VectorIndex)
    (eff' : EffectiveRetention) (nowMs' : Int64) :
    overVectors eff' nowMs' q (vectorStep p eff nowMs false vector).2 =
      overVectors eff' nowMs' q vector := by
  cases vector with
  | none => rfl
  | some idx =>
    cases h : eff.vectorMaxAgeMs with
    | none => simp only [vectorStep,h]
    | some vmax =>
      cases h' : eff'.vectorMaxAgeMs with
      | none => simp only [overVectors,h',vectorStep,h]
      | some vmax' =>
        simp only [overVectors,h',vectorStep,h,VectorIndex.sweepMaxAge,Bool.false_eq_true,if_false,
          KeyTable.rows_delete,List.countP_filter]
        apply List.countP_congr
        intro r _
        constructor
        · intro hr
          exact (Bool.and_eq_true_iff.mp hr).1
        · intro hr
          simp only [hr,older_exclusive hq hr,Bool.not_false,Bool.and_self]

/-- Whatever a pass over `p` does, the other pairs do not see it. -/
theorem sweepPair_frame (eff : EffectiveRetention) (nowMs : Int64) (hq : q ≠ p)
    (st : Stores) :
    SameFor q st (sweepPair p eff nowMs false st).2 := by
  have hspec := sweepPair_real p eff nowMs st
  split at hspec
  · obtain ⟨e,cold,hst,hcut⟩ := hspec
    rw [hst]
    exact ⟨hcut.other q hq,fun _ _ => rfl⟩
  · obtain ⟨warnings,cold,hst,hcut⟩ := hspec
    rw [hst]
    exact ⟨hcut.other q hq,fun eff' nowMs' => overVectors_vectorStep hq _ eff' nowMs'⟩

end Frame

section Reports

variable (policies : List RetentionPolicy) (nowMs : Int64)

/-- Report row of a dry pass over one pair. -/
def dryRow (st : Stores) (p : Pair) : PerPairReport :=
  let eff := resolveEffective policies p.1 p.2
  ⟨p,eff,dryDrop eff nowMs (st.cold.newestFirst p),overVectors eff nowMs p st.vector⟩

/-- Report row of a real pass over one pair, when it succeeds. -/
def realRow (st : Stores) (p : Pair) : PerPairReport :=
  let eff := resolveEffective policies p.1 p.2
  ⟨p,eff,realDrop eff nowMs (st.cold.newestFirst p),overVectors eff nowMs p st.vector⟩

/-- Pairs that some policy binds. -/
def bound (pairs : List Pair) : List Pair :=
  pairs.filter fun p => !(resolveEffective policies p.1 p.2).isEmpty

/-- A report row is listed when something was dropped. -/
def PerPairReport.listed (r : PerPairReport) : Bool := 0 < r.eventsDropped || 0 < r.vectorsDropped

variable {policies nowMs}

/-- `report` extends `old` by these rows. -/
structure Extends (old : SweepReport) (rows : List PerPairReport) (report : SweepReport) : Prop where
  perPair : report.perPair = old.perPair ++ rows.filter PerPairReport.listed
  eventsDropped : report.eventsDropped = old.eventsDropped+(rows.map (·.eventsDropped)).sum
  vectorsDropped : report.vectorsDropped = old.vectorsDropped+(rows.map (·.vectorsDropped)).sum

theorem Extends.nil (report : SweepReport) : Extends report [] report := ⟨by simp,by simp,by simp⟩

theorem Extends.cons {old report : SweepReport} {row : PerPairReport} {rows : List PerPairReport}
    {warnings : List SweepWarning} (h : Extends (old.add row warnings) rows report) :
    Extends old (row::rows) report := by
  refine ⟨?_,?_,?_⟩
  · rw [h.perPair,SweepReport.add]
    by_cases hrow : 0 < row.eventsDropped ∨ 0 < row.vectorsDropped
    · have hlisted : row.listed = true := by simpa [PerPairReport.listed] using hrow
      simp [hrow,hlisted]
    · have hlisted : row.listed = false := by simpa [PerPairReport.listed] using hrow
      simp only [hrow,if_false,List.filter_cons,hlisted,Bool.false_eq_true]
  · rw [h.eventsDropped,SweepReport.add]
    simp [Nat.add_assoc]
  · rw [h.vectorsDropped,SweepReport.add]
    simp [Nat.add_assoc]

theorem bound_cons (p : Pair) (pairs : List Pair) : bound policies (p::pairs) =
    if (resolveEffective policies p.1 p.2).isEmpty then bound policies pairs
    else p::bound policies pairs := by
  simp only [bound,List.filter_cons]
  cases (resolveEffective policies p.1 p.2).isEmpty <;> rfl

theorem sweepPairs_dry (policies : List RetentionPolicy) (nowMs : Int64) (pairs : List Pair)
    (old : SweepReport) (st : Stores) :
    ∃ report, sweepPairs policies nowMs true pairs old st = (.ok report,st) ∧
      Extends old ((bound policies pairs).map (dryRow policies nowMs st)) report := by
  induction pairs generalizing old with
  | nil => exact ⟨old,rfl,.nil old⟩
  | cons p pairs ih =>
    rw [bound_cons]
    simp only [sweepPairs]
    split
    next => exact ih old
    next =>
      obtain ⟨warnings,hpair⟩ := sweepPair_dry p (resolveEffective policies p.1 p.2) nowMs st
      obtain ⟨report,hrest,hext⟩ := ih (old.add (dryRow policies nowMs st p) warnings)
      exact ⟨report,by rw [hpair]; exact hrest,hext.cons⟩

/-- The real sweep: the rows of its report are read off the state at its start, and it fails
when some pair is not deletable. -/
theorem sweepPairs_real (policies : List RetentionPolicy) (nowMs : Int64) (pairs : List Pair)
    (hnd : pairs.Nodup) (old : SweepReport)
    {st st' : Stores} (hsame : ∀ p ∈ pairs, SameFor p st st') :
    (∀ p ∈ bound policies pairs, Deletable policies nowMs st p) →
      (∃ report, (sweepPairs policies nowMs false pairs old st').1 = .ok report ∧
        Extends old ((bound policies pairs).map (realRow policies nowMs st)) report) := by
  induction pairs generalizing old st' with
  | nil => exact fun _ => ⟨old,rfl,.nil old⟩
  | cons p pairs ih =>
    obtain ⟨hp,hpairs⟩ := List.nodup_cons.mp hnd
    rw [bound_cons]
    simp only [sweepPairs]
    split
    next => exact ih hpairs old fun q hq => hsame q (List.mem_cons_of_mem _ hq)
    next =>
      intro hdel
      have hcold := (hsame p List.mem_cons_self).cold
      have hvec := (hsame p List.mem_cons_self).vectors
      have hspec := sweepPair_real p (resolveEffective policies p.1 p.2) nowMs st'
      have hframe := fun q (hq : q ≠ p) =>
        sweepPair_frame (resolveEffective policies p.1 p.2) nowMs hq st'
      have hfew : lateBytes (resolveEffective policies p.1 p.2) nowMs (st.cold.newestFirst p) ≤
          sqliteMaxVariables := hdel p List.mem_cons_self
      rw [hcold,if_neg (not_lt.mpr hfew)] at hspec
      obtain ⟨warnings,cold,hst,_⟩ := hspec
      rw [hst] at hframe ⊢
      simp only at hframe ⊢
      rw [hvec]
      obtain ⟨report,hrest,hext⟩ := ih hpairs (old.add (realRow policies nowMs st p) warnings)
        (fun q hq => (hsame q (List.mem_cons_of_mem _ hq)).trans
          (hframe q fun h => hp (h ▸ hq))) fun q hq => hdel q (List.mem_cons_of_mem _ hq)
      exact ⟨report,hrest,hext.cons⟩

theorem sweepPairs_error (nowMs : Int64) (pairs : List Pair) (hnd : pairs.Nodup) (old : SweepReport)
    {st st' : Stores} (hsame : ∀ p ∈ pairs, SameFor p st st') {p : Pair}
    (hp : p ∈ bound policies pairs) (hdel : ¬ Deletable policies nowMs st p) :
    ∃ e, (sweepPairs policies nowMs false pairs old st').1 = .error e := by
  induction pairs generalizing old st' with
  | nil => simp [bound] at hp
  | cons q pairs ih =>
    obtain ⟨hq,hpairs⟩ := List.nodup_cons.mp hnd
    rw [bound_cons] at hp
    simp only [sweepPairs]
    split at hp
    next hempty =>
      rw [if_pos hempty]
      exact ih hpairs old (fun r hr => hsame r (List.mem_cons_of_mem _ hr)) hp
    next hbound =>
      rw [if_neg hbound]
      have hcold := (hsame q List.mem_cons_self).cold
      have hspec := sweepPair_real q (resolveEffective policies q.1 q.2) nowMs st'
      have hframe := fun r (hr : r ≠ q) =>
        sweepPair_frame (resolveEffective policies q.1 q.2) nowMs hr st'
      rw [hcold] at hspec
      split at hspec
      next =>
        obtain ⟨e,cold,hst,_⟩ := hspec
        exact ⟨e,by rw [hst]⟩
      next hfew =>
        obtain ⟨warnings,cold,hst,_⟩ := hspec
        rw [hst] at hframe ⊢
        rcases List.mem_cons.mp hp with rfl | hp
        · exact absurd (not_lt.mp hfew) hdel
        · exact ih hpairs _ (fun r hr => (hsame r (List.mem_cons_of_mem _ hr)).trans
            (hframe r fun h => hq (h ▸ hr))) hp

end Reports

/-- The listed rows of two reports agree only row by row. -/
theorem filter_listed_inj {f g : Pair → PerPairReport} {l : List Pair}
    (hf : ∀ p, (f p).pair = p) (hg : ∀ p, (g p).pair = p)
    (hzero : ∀ p, (f p).listed = false → (g p).listed = false → f p = g p) :
    (l.map f).filter PerPairReport.listed = (l.map g).filter PerPairReport.listed ↔
      ∀ p ∈ l, f p = g p := by
  constructor
  · intro h p hp
    have hmem : ∀ r : PerPairReport, r.listed = true → ((∃ q ∈ l, f q = r) ↔ ∃ q ∈ l, g q = r) := by
      intro r hr
      have hr' : r ∈ (l.map f).filter PerPairReport.listed ↔
          r ∈ (l.map g).filter PerPairReport.listed := by rw [h]
      simpa [hr] using hr'
    cases hfp : (f p).listed with
    | true =>
      obtain ⟨q,_,hq⟩ := (hmem (f p) hfp).mp ⟨p,hp,rfl⟩
      have hqp : q = p := by rw [← hg q,hq,hf]
      rw [← hq,hqp]
    | false =>
      cases hgp : (g p).listed with
      | true =>
        obtain ⟨q,_,hq⟩ := (hmem (g p) hgp).mpr ⟨p,hp,rfl⟩
        have hqp : q = p := by rw [← hf q,hq,hg]
        rw [← hq,hqp]
      | false => exact hzero p hfp hgp
  · intro h
    rw [List.map_congr_left h]

section Prediction

variable (policies : List RetentionPolicy) (nowMs : Int64) (st : Stores)

/-- The dry run leaves both stores alone, and its counts are those of the real sweep. -/
def Predicts : Prop :=
  (sweep policies nowMs true st).2 = st ∧
    ∃ dry real, (sweep policies nowMs true st).1 = .ok dry ∧
      (sweep policies nowMs false st).1 = .ok real ∧
      dry.eventsDropped = real.eventsDropped ∧ dry.vectorsDropped = real.vectorsDropped ∧
      dry.perPair = real.perPair

/-- With `a` rows over `max_age`, `b` over `max_bytes` and `d` asked for by `max_count`: only
the byte bound drops rows, or what the dry run counts for the last two dimensions is what
`max_count` drops after `max_age`. -/
def Additive (eff : EffectiveRetention) (l : List EventRow) : Prop :=
  (overAge eff nowMs l = 0 ∧ overCount eff l.length = 0 ∧ overBytes eff l ≤ sqliteMaxVariables) ∨
    overCount eff l.length+overBytes eff l =
      min (overCount eff (l.length-overAge eff nowMs l)) (l.length-overAge eff nowMs l)

variable {policies nowMs st}

/-- The two counts of one pair agree in this case only. -/
theorem dryDrop_eq_iff (eff : EffectiveRetention) (l : List EventRow) :
    (lateBytes eff nowMs l ≤ sqliteMaxVariables ∧ dryDrop eff nowMs l = realDrop eff nowMs l) ↔
      Additive nowMs eff l := by
  have hage := overAge_le eff nowMs l
  have hbytes := overBytes_le eff l
  have hlate : lateBytes eff nowMs l = leftByCount eff nowMs l-(l.length-overBytes eff l) :=
    overBytes_take l (leftByCount_le eff nowMs l)
  have hsame : overAge eff nowMs l = 0 →
      overCount eff (l.length-overAge eff nowMs l) = overCount eff l.length := fun h => by rw [h]; rfl
  unfold Additive dryDrop realDrop
  rw [hlate]
  unfold leftByCount leftByAge
  omega

theorem rows_eq_iff (policies : List RetentionPolicy) (nowMs : Int64) (st : Stores)
    (pairs : List Pair) :
    ((bound policies pairs).map (dryRow policies nowMs st)).filter PerPairReport.listed =
        ((bound policies pairs).map (realRow policies nowMs st)).filter PerPairReport.listed ↔
      ∀ p ∈ bound policies pairs, dryRow policies nowMs st p = realRow policies nowMs st p := by
  refine filter_listed_inj (fun _ => rfl) (fun _ => rfl) fun p hdry hreal => ?_
  simp only [PerPairReport.listed,Bool.or_eq_false_iff,decide_eq_false_iff_not,not_lt,
    Nat.le_zero] at hdry hreal
  exact congrArg (fun n => PerPairReport.mk p _ n _) (hdry.1.trans hreal.1.symm)

theorem dryRow_eq_iff {p : Pair} : dryRow policies nowMs st p = realRow policies nowMs st p ↔
    dryDrop (resolveEffective policies p.1 p.2) nowMs (st.cold.newestFirst p) =
      realDrop (resolveEffective policies p.1 p.2) nowMs (st.cold.newestFirst p) := by
  simp [dryRow,realRow]

/-- A dry run predicts the real sweep exactly when the dimensions are additive on the log of
every pair that a policy binds. -/
theorem dry_run_predicts_iff (policies : List RetentionPolicy) (nowMs : Int64) (st : Stores) :
    Predicts policies nowMs st ↔ ∀ p ∈ st.cold.distinctSourceKindPairs,
      ¬ (resolveEffective policies p.1 p.2).isEmpty = true →
        Additive nowMs (resolveEffective policies p.1 p.2) (st.cold.newestFirst p) := by
  generalize hpairs : st.cold.distinctSourceKindPairs = pairs
  have hnd : pairs.Nodup := hpairs ▸ nodup_distinctSourceKindPairs st.cold
  have hbound : (∀ p ∈ pairs, ¬ (resolveEffective policies p.1 p.2).isEmpty = true →
      Additive nowMs (resolveEffective policies p.1 p.2) (st.cold.newestFirst p)) ↔
      ∀ p ∈ bound policies pairs, Deletable policies nowMs st p ∧
        dryRow policies nowMs st p = realRow policies nowMs st p := by
    simp only [dryRow_eq_iff,Deletable,effOf,dryDrop_eq_iff,bound,List.mem_filter,and_imp]
    simp
  rw [hbound]
  obtain ⟨dry,hdry,hdryExt⟩ := sweepPairs_dry policies nowMs pairs
    ⟨[],0,0,[],true⟩ st
  have hsweep : sweep policies nowMs true st = (.ok dry,st) := by rw [sweep,hpairs,hdry]
  by_cases hdel : ∀ p ∈ bound policies pairs, Deletable policies nowMs st p
  · obtain ⟨real,hreal,hrealExt⟩ := sweepPairs_real policies nowMs pairs
      hnd ⟨[],0,0,[],false⟩ (fun p _ => SameFor.refl p st) hdel
    have hreal' : (sweep policies nowMs false st).1 = .ok real := by rw [sweep,hpairs,hreal]
    have hrows := rows_eq_iff policies nowMs st pairs
    constructor
    · rintro ⟨_,dry',real',hd,hr,_,_,hper⟩ p hp
      rw [hsweep] at hd
      obtain rfl : dry = dry' := Except.ok.inj hd
      obtain rfl : real = real' := Except.ok.inj (hreal'.symm.trans hr)
      rw [hdryExt.perPair,hrealExt.perPair,List.nil_append,List.nil_append,hrows] at hper
      exact ⟨hdel p hp,hper p hp⟩
    · intro h
      have hall := fun p hp => (h p hp).2
      have hmap := List.map_congr_left hall
      refine ⟨by rw [hsweep],dry,real,by rw [hsweep],hreal',?_,?_,?_⟩
      · rw [hdryExt.eventsDropped,hrealExt.eventsDropped,hmap]
      · rw [hdryExt.vectorsDropped,hrealExt.vectorsDropped,hmap]
      · rw [hdryExt.perPair,hrealExt.perPair,hmap]
  · push Not at hdel
    obtain ⟨p,hp,hpdel⟩ := hdel
    obtain ⟨e,he⟩ := sweepPairs_error nowMs pairs hnd ⟨[],0,0,[],false⟩
      (fun q _ => SameFor.refl q st) hp hpdel
    have he' : (sweep policies nowMs false st).1 = .error e := by rw [sweep,hpairs,he]
    constructor
    · rintro ⟨_,_,real,_,hreal,_⟩
      rw [he'] at hreal
      cases hreal
    · intro h
      exact absurd (h p hp).1 hpdel

/-- Three rows past both bounds: the dry run counts two of them twice. -/
theorem dry_run_counts_twice :
    ((sweep [{ maxAge := some (.fromSecs 1), maxCount := some 1 }] 5000 true
      (Stores.openInMemory.apply (.append [.required 1 "s" "k" 1 .null,
        .required 2 "s" "k" 2 .null,.required 3 "s" "k" 3 .null]))).1.map fun r =>
        r.eventsDropped) = .ok 5 ∧
    ((sweep [{ maxAge := some (.fromSecs 1), maxCount := some 1 }] 5000 false
      (Stores.openInMemory.apply (.append [.required 1 "s" "k" 1 .null,
        .required 2 "s" "k" 2 .null,.required 3 "s" "k" 3 .null]))).1.map fun r =>
        r.eventsDropped) = .ok 3 := by
  decide

end Prediction

end Percept
