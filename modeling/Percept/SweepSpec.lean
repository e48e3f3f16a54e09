import Percept.PairRows

/-! What one pass over a pair drops. A dry run counts every dimension on the whole log of the
pair; a real sweep counts each on what the dimension before it left. -/
namespace Percept

open ColdStore

section Dimensions

variable (eff : EffectiveRetention) (nowMs : Int64)

/-- Rows that `max_age` drops from a log. -/
def overAge (l : List EventRow) : ℕ :=
  match eff.maxAgeMs with
  | none => 0
  | some maxAgeMs => l.length-keptByAge (saturatingSub nowMs maxAgeMs) l

/-- The number `max_count` asks to drop from so many rows. -/
def overCount (n : ℕ) : ℕ :=
  match eff.maxCount with
  | none => 0
  | some maxCount => dropCount maxCount n

/-- Rows beyond the byte budget. -/
def overBytes (l : List EventRow) : ℕ :=
  match eff.maxBytes with
  | none => 0
  | some maxBytes => l.length-keptByBytes maxBytes l

/-- Vectors of the pair that `vector_max_age` drops. -/
def overVectors (p : Pair) (vector : Option VectorIndex) : ℕ :=
  match vector,eff.vectorMaxAgeMs with
  | some idx,some vmax =>
    idx.table.rows.countP fun r => VectorIndex.older p (saturatingSub nowMs vmax) r.toInMemoryRow
  | _,_ => 0

variable {eff nowMs}

theorem overAge_le (eff : EffectiveRetention) (nowMs : Int64) (l : List EventRow) :
    overAge eff nowMs l ≤ l.length := by
  unfold overAge
  split <;> omega

theorem overBytes_le (eff : EffectiveRetention) (l : List EventRow) : overBytes eff l ≤ l.length := by
  unfold overBytes
  split <;> omega

/-- On a front part of the log fewer rows are over the budget. -/
theorem overBytes_take (l : List EventRow) {j : ℕ} (hj : j ≤ l.length) :
    overBytes eff (l.take j) = j-(l.length-overBytes eff l) := by
  unfold overBytes
  split
  next => omega
  next maxBytes _ =>
    have hle : keptByBytes maxBytes l ≤ l.length := fitting_le _ _ _
    rw [keptByBytes,fitting_take,← keptByBytes,List.length_take]
    omega

variable {p : Pair} {s : ColdStore}

theorem ageStep_dry : ageStep p eff nowMs true s = (overAge eff nowMs (s.newestFirst p),s) := by
  cases h : eff.maxAgeMs with
  | none => simp only [ageStep,overAge,h]
  | some maxAgeMs =>
    simp only [ageStep,overAge,h]
    simp [sweepMaxAge,countOlder_eq,length_newestFirst]

theorem ageStep_real (eff : EffectiveRetention) (nowMs : Int64) (p : Pair) (s : ColdStore) :
    (ageStep p eff nowMs false s).1 = overAge eff nowMs (s.newestFirst p) ∧
    s.Cut p (s.countForPair p-overAge eff nowMs (s.newestFirst p))
      (ageStep p eff nowMs false s).2 := by
  cases h : eff.maxAgeMs with
  | none =>
    simp only [ageStep,overAge,h]
    exact ⟨trivial,Cut.refl s p (by omega)⟩
  | some maxAgeMs =>
    simp only [ageStep,overAge,h]
    have hle : keptByAge (saturatingSub nowMs maxAgeMs) (s.newestFirst p) ≤ s.countForPair p :=
      List.countP_le_length.trans_eq (s.length_newestFirst p)
    refine ⟨by simp [sweepMaxAge,countOlder_eq,length_newestFirst],?_⟩
    rw [length_newestFirst,Nat.sub_sub_self hle]
    exact s.sweepMaxAge_cut p _

theorem countStep_dry : countStep p eff true s = (overCount eff (s.countForPair p),s) := by
  cases h : eff.maxCount with
  | none => simp only [countStep,overCount,h]
  | some maxCount =>
    simp only [countStep,overCount,h]
    simp [sweepMaxCount]

theorem countStep_real (eff : EffectiveRetention) (p : Pair) (s : ColdStore) :
    (countStep p eff false s).1 = min (overCount eff (s.countForPair p)) (s.countForPair p) ∧
      s.Cut p (s.countForPair p-overCount eff (s.countForPair p)) (countStep p eff false s).2 := by
  cases h : eff.maxCount with
  | none =>
    simp only [countStep,overCount,h]
    exact ⟨by omega,Cut.refl s p (by omega)⟩
  | some maxCount =>
    simp only [countStep,overCount,h]
    exact (s.sweepMaxCount_cut p maxCount).symm

theorem bytesStep_dry : bytesStep p eff true s = .ok (overBytes eff (s.newestFirst p),s) := by
  cases h : eff.maxBytes with
  | none => simp only [bytesStep,overBytes,h]
  | some maxBytes =>
    simp only [bytesStep,overBytes,h]
    rw [sweepMaxBytes_dry,length_newestFirst]

theorem bytesStep_real (eff : EffectiveRetention) (p : Pair) (s : ColdStore) :
    if sqliteMaxVariables < overBytes eff (s.newestFirst p) then
      bytesStep p eff false s = .error (.sqlite "too many SQL variables")
    else ∃ s', bytesStep p eff false s = .ok (overBytes eff (s.newestFirst p),s') ∧
      s.Cut p (s.countForPair p-overBytes eff (s.newestFirst p)) s' := by
  cases h : eff.maxBytes with
  | none =>
    simp only [bytesStep,overBytes,h]
    rw [if_neg (Nat.not_lt_zero _)]
    exact ⟨s,rfl,Cut.refl s p (by omega)⟩
  | some maxBytes =>
    simp only [bytesStep,overBytes,h]
    have hle : keptByBytes maxBytes (s.newestFirst p) ≤ s.countForPair p :=
      (fitting_le _ _ _).trans_eq (s.length_newestFirst p)
    rw [length_newestFirst,Nat.sub_sub_self hle]
    exact s.sweepMaxBytes_real p maxBytes

end Dimensions

section SweepPair

variable (eff : EffectiveRetention) (nowMs : Int64)

/-- Rows that `max_age` leaves. -/
def leftByAge (l : List EventRow) : ℕ := l.length-overAge eff nowMs l

/-- Rows that `max_age` and `max_count` leave. -/
def leftByCount (l : List EventRow) : ℕ :=
  leftByAge eff nowMs l-overCount eff (leftByAge eff nowMs l)

/-- Rows that `max_bytes` drops from what the other two leave. -/
def lateBytes (l : List EventRow) : ℕ := overBytes eff (l.take (leftByCount eff nowMs l))

/-- Rows that a real sweep drops. -/
def realDrop (l : List EventRow) : ℕ :=
  overAge eff nowMs l+min (overCount eff (leftByAge eff nowMs l)) (leftByAge eff nowMs l)+
    lateBytes eff nowMs l

/-- Rows that a dry run counts. -/
def dryDrop (l : List EventRow) : ℕ :=
  overAge eff nowMs l+overCount eff l.length+overBytes eff l

variable {eff nowMs} {p : Pair} {st : Stores}

theorem leftByCount_le (eff : EffectiveRetention) (nowMs : Int64) (l : List EventRow) :
    leftByCount eff nowMs l ≤ l.length := by
  unfold leftByCount leftByAge
  omega

theorem vectorStep_fst (dryRun : Bool) (vector : Option VectorIndex) :
    (vectorStep p eff nowMs dryRun vector).1 = overVectors eff nowMs p vector := by
  unfold vectorStep overVectors
  cases vector <;> cases eff.vectorMaxAgeMs <;> cases dryRun <;> rfl

theorem vectorStep_dry (vector : Option VectorIndex) :
    (vectorStep p eff nowMs true vector).2 = vector := by
  unfold vectorStep
  cases vector <;> cases eff.vectorMaxAgeMs <;> rfl

theorem sweepPair_dry (p : Pair) (eff : EffectiveRetention) (nowMs : Int64)
    (st : Stores) : ∃ warnings, sweepPair p eff nowMs true st =
    (.ok (⟨p,eff,dryDrop eff nowMs (st.cold.newestFirst p),overVectors eff nowMs p st.vector⟩,
      warnings),st) := by
  simp only [sweepPair,ageStep_dry,countStep_dry,bytesStep_dry,vectorStep_fst,vectorStep_dry,
    dryDrop,length_newestFirst]
  exact ⟨_,rfl⟩

/-- A real pass over a pair cuts its log; it fails when the byte bound has to drop more rows
than a statement has variables, and then keeps what the other two bounds left. -/
theorem sweepPair_real (p : Pair) (eff : EffectiveRetention) (nowMs : Int64)
    (st : Stores) :
    if sqliteMaxVariables < lateBytes eff nowMs (st.cold.newestFirst p) then
      ∃ e cold, sweepPair p eff nowMs false st = (.error e,{ st with cold := cold }) ∧
        st.cold.Cut p (leftByCount eff nowMs (st.cold.newestFirst p)) cold
    else ∃ warnings cold, sweepPair p eff nowMs false st =
        (.ok (⟨p,eff,realDrop eff nowMs (st.cold.newestFirst p),
          overVectors eff nowMs p st.vector⟩,warnings),
          ⟨cold,(vectorStep p eff nowMs false st.vector).2⟩) ∧
      st.cold.Cut p (leftByCount eff nowMs (st.cold.newestFirst p)-
        lateBytes eff nowMs (st.cold.newestFirst p)) cold := by
  generalize hl : st.cold.newestFirst p = l
  have hn : st.cold.countForPair p = l.length := by rw [← hl,length_newestFirst]
  obtain ⟨hage,hcut₁⟩ := ageStep_real eff nowMs p st.cold
  rw [hl] at hage hcut₁
  rcases hst₁ : ageStep p eff nowMs false st.cold with ⟨aged,cold₁⟩
  rw [hst₁] at hage hcut₁
  obtain ⟨hcount,hcut₂⟩ := countStep_real eff p cold₁
  have hn₁ : cold₁.countForPair p = leftByAge eff nowMs l := by
    rw [hcut₁.countForPair,hn,leftByAge]
    omega
  rw [hn₁] at hcount hcut₂
  rcases hst₂ : countStep p eff false cold₁ with ⟨counted,cold₂⟩
  rw [hst₂] at hcount hcut₂
  have hcut₁₂ : st.cold.Cut p (leftByCount eff nowMs l) cold₂ := by
    have hcut := hcut₁.trans hcut₂
    have hmin : min (leftByAge eff nowMs l-overCount eff (leftByAge eff nowMs l))
        (st.cold.countForPair p-overAge eff nowMs l) = leftByCount eff nowMs l := by
      rw [hn]
      unfold leftByCount leftByAge
      omega
    rwa [hmin] at hcut
  have hl₂ : overBytes eff (cold₂.newestFirst p) = lateBytes eff nowMs l := by
    rw [hcut₁₂.self,hl,lateBytes]
  have hbytes := bytesStep_real eff p cold₂
  rw [hl₂] at hbytes
  split
  next hmany =>
    rw [if_pos hmany] at hbytes
    exact ⟨.sqlite "too many SQL variables",cold₂,by simp only [sweepPair,hst₁,hst₂,hbytes],
      hcut₁₂⟩
  next hfew =>
    rw [if_neg hfew] at hbytes
    obtain ⟨cold₃,hst₃,hcut₃⟩ := hbytes
    have hcut : st.cold.Cut p (leftByCount eff nowMs l-lateBytes eff nowMs l) cold₃ := by
      have hcut := hcut₁₂.trans hcut₃
      have hn₂ : cold₂.countForPair p = leftByCount eff nowMs l := by
        rw [hcut₁₂.countForPair,hn]
        exact min_eq_left (leftByCount_le eff nowMs l)
      rw [hn₂] at hcut
      rwa [min_eq_left (by omega)] at hcut
    simp only at hage hcount
    simp only [sweepPair,hst₁,hst₂,hst₃,vectorStep_fst,realDrop,← hage,← hcount]
    exact ⟨_,cold₃,rfl,hcut⟩

end SweepPair

section Sweep

variable (policies : List RetentionPolicy) (nowMs : Int64)

/-- The bounds of a pair. -/
def effOf (p : Pair) : EffectiveRetention := resolveEffective policies p.1 p.2

/-- The byte bound stays within the variables of one statement. -/
def Deletable (st : Stores) (p : Pair) : Prop :=
  lateBytes (effOf policies p) nowMs (st.cold.newestFirst p) ≤ sqliteMaxVariables

instance (st : Stores) (p : Pair) : Decidable (Deletable policies nowMs st p) :=
  inferInstanceAs (Decidable (_ ≤ _))

/-- The pairs that a real sweep works on: the bound ones, up to the first where it fails. -/
def sweptPairs (st : Stores) : List Pair → List Pair
  | [] => []
  | p::pairs =>
    if (resolveEffective policies p.1 p.2).isEmpty then sweptPairs st pairs
    else if Deletable policies nowMs st p then p::sweptPairs st pairs
    else [p]

/-- Rows of a log that one pass leaves. -/
def keptRows (eff : EffectiveRetention) (l : List EventRow) : ℕ :=
  if sqliteMaxVariables < lateBytes eff nowMs l then leftByCount eff nowMs l
  else leftByCount eff nowMs l-lateBytes eff nowMs l

variable {policies nowMs} {p q : Pair} {st st' : Stores}

theorem sweepPair_cut (p : Pair) (eff : EffectiveRetention) (nowMs : Int64)
    (st : Stores) :
    st.cold.Cut p (keptRows nowMs eff (st.cold.newestFirst p))
      (sweepPair p eff nowMs false st).2.cold := by
  have hspec := sweepPair_real p eff nowMs st
  unfold keptRows
  split at hspec
  next hmany =>
    obtain ⟨e,cold,hst,hcut⟩ := hspec
    rwa [if_pos hmany,hst]
  next hfew =>
    obtain ⟨warnings,cold,hst,hcut⟩ := hspec
    rwa [if_neg hfew,hst]

theorem deletable_congr (h : st'.cold.newestFirst p = st.cold.newestFirst p) :
    Deletable policies nowMs st' p ↔ Deletable policies nowMs st p := by
  unfold Deletable
  rw [h]

theorem sweptPairs_congr {pairs : List Pair}
    (h : ∀ p ∈ pairs, st'.cold.newestFirst p = st.cold.newestFirst p) :
    sweptPairs policies nowMs st' pairs = sweptPairs policies nowMs st pairs := by
  induction pairs with
  | nil => rfl
  | cons p pairs ih =>
    have hdel : Deletable policies nowMs st' p ↔ _ := deletable_congr (h p List.mem_cons_self)
    simp only [sweptPairs,hdel,ih fun q hq => h q (List.mem_cons_of_mem _ hq)]

theorem mem_of_mem_sweptPairs {pairs : List Pair} (h : p ∈ sweptPairs policies nowMs st pairs) :
    p ∈ pairs := by
  induction pairs with
  | nil => exact h
  | cons q pairs ih =>
    unfold sweptPairs at h
    split at h
    · exact List.mem_cons_of_mem _ (ih h)
    · split at h
      · rcases List.mem_cons.mp h with rfl | h
        · exact List.mem_cons_self
        · exact List.mem_cons_of_mem _ (ih h)
      · rw [List.mem_singleton.mp h]
        exact List.mem_cons_self

/-- What a pass leaves of the log of a pair. -/
def keptOf (policies : List RetentionPolicy) (nowMs : Int64) (st : Stores) (p : Pair) : ℕ :=
  keptRows nowMs (effOf policies p) (st.cold.newestFirst p)

/-- A real sweep cuts the log of every pair it works on and leaves everything else. -/
theorem sweepPairs_cut (policies : List RetentionPolicy) (nowMs : Int64) {pairs : List Pair}
    (hnd : pairs.Nodup) (old : SweepReport) (st : Stores) :
    st.cold.CutAll (keptOf policies nowMs st) (sweptPairs policies nowMs st pairs)
      (sweepPairs policies nowMs false pairs old st).2.cold := by
  induction pairs generalizing old st with
  | nil => exact .nil _ _
  | cons q pairs ih =>
    obtain ⟨hq,hpairs⟩ := List.nodup_cons.mp hnd
    have hsame : ∀ r ∈ pairs, r ≠ q := fun r hr h => hq (h ▸ hr)
    have hcut : st.cold.Cut q (keptOf policies nowMs st q) _ :=
      sweepPair_cut q (resolveEffective policies q.1 q.2) nowMs st
    have hspec := sweepPair_real q (resolveEffective policies q.1 q.2) nowMs st
    simp only [sweepPairs,sweptPairs]
    split
    next => exact ih hpairs old st
    next =>
      split at hspec
      next hmany =>
        obtain ⟨e,cold,hst,_⟩ := hspec
        have hnot : ¬ Deletable policies nowMs st q := not_le.mpr hmany
        rw [hst] at hcut ⊢
        rw [if_neg hnot]
        exact hcut.cons (by simp) (.nil cold (keptOf policies nowMs st)) (by simp)
      next hfew =>
        obtain ⟨warnings,cold,hst,_⟩ := hspec
        have hdel : Deletable policies nowMs st q := not_lt.mp hfew
        rw [hst] at hcut ⊢
        rw [if_pos hdel]
        simp only at hcut ⊢
        generalize hnext : Stores.mk cold _ = next
        have hcold : next.cold = cold := by rw [← hnext]
        have hother : ∀ r ∈ pairs, next.cold.newestFirst r = st.cold.newestFirst r :=
          fun r hr => hcold ▸ hcut.other r (hsame r hr)
        have hrest := fun report => ih hpairs report next
        simp only [sweptPairs_congr hother] at hrest
        rw [← hcold] at hcut
        refine hcut.cons (fun h => hsame q (mem_of_mem_sweptPairs h) rfl) (hrest _) fun r hr => ?_
        unfold keptOf
        rw [hother r (mem_of_mem_sweptPairs hr)]

theorem nodup_distinctSourceKindPairs (s : ColdStore) : s.distinctSourceKindPairs.Nodup :=
  (List.perm_insertionSort _ _).nodup_iff.mpr (List.nodup_dedup _)

/-- A dry run changes nothing. -/
theorem sweepPairs_dry_snd (pairs : List Pair) (old : SweepReport) (st : Stores) :
    (sweepPairs policies nowMs true pairs old st).2 = st := by
  induction pairs generalizing old with
  | nil => rfl
  | cons p pairs ih =>
    simp only [sweepPairs]
    split
    next => exact ih old
    next =>
      obtain ⟨warnings,hst⟩ := sweepPair_dry p (resolveEffective policies p.1 p.2) nowMs st
      rw [hst]
      exact ih _

/-- A sweep leaves the cache alone. -/
theorem sweep_latest (policies : List RetentionPolicy) (nowMs : Int64) (dryRun : Bool) (st : Stores) :
    (sweep policies nowMs dryRun st).2.cold.latest = st.cold.latest := by
  cases dryRun with
  | true => exact congrArg (fun st => st.cold.latest) (sweepPairs_dry_snd _ _ _)
  | false => exact (sweepPairs_cut policies nowMs (nodup_distinctSourceKindPairs st.cold) _ st).latest

end Sweep

end Percept
