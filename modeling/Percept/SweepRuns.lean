import Percept.EdgePrefix
import Percept.SweepKept
import Percept.Lib.Retain

/-! Sweeps over time. The rows of a pair and the bounds on them are a set and a bound on sets, and a
sweep keeps the front of the set; so what the last sweep of a run leaves does not depend on the
sweeps before it. -/
namespace Percept

open Classical OrderBy ColdStore Retain

/-- A set of rows within the bounds at a time. -/
structure Allowed (eff : EffectiveRetention) (nowMs : Int64) (s : Finset EventRow) : Prop where
  age : ∀ maxAgeMs, eff.maxAgeMs = some maxAgeMs → ∀ r ∈ s, nowMs.toInt-maxAgeMs.toInt ≤ r.tsMsUtc.toInt
  count : ∀ maxCount, eff.maxCount = some maxCount → (s.card : ℤ) ≤ maxCount.toInt
  bytes : ∀ maxBytes, eff.maxBytes = some maxBytes → ((∑ r ∈ s, r.length : ℕ) : ℤ) ≤ maxBytes.toInt

section Bounds

variable {eff : EffectiveRetention} {nowMs : Int64}

theorem allowed_antitone (eff : EffectiveRetention) (nowMs : Int64) : Antitone (Allowed eff nowMs) := by
  intro s t hst h
  refine ⟨fun ms hms r hr => h.age ms hms r (hst hr),fun n hn => ?_,fun n hn => ?_⟩
  · exact le_trans (Int.ofNat_le.mpr (Finset.card_le_card hst)) (h.count n hn)
  · exact le_trans (Int.ofNat_le.mpr (Finset.sum_le_sum_of_subset hst)) (h.bytes n hn)

/-- Time only tightens the bounds. -/
theorem Allowed.earlier {s : Finset EventRow} {earlier : Int64} (hle : earlier ≤ nowMs)
    (h : Allowed eff nowMs s) : Allowed eff earlier s := by
  refine ⟨fun ms hms r hr => ?_,h.count,h.bytes⟩
  have hage := h.age ms hms r hr
  have hnow := Int64.le_iff_toInt_le.mp hle
  omega

theorem allowed_toFinset {l : List EventRow} (hl : l.Nodup) :
    Allowed eff nowMs l.toFinset ↔ WithinBounds eff nowMs l := by
  have hcard : l.toFinset.card = l.length := List.toFinset_card_of_nodup hl
  have hsum : (∑ r ∈ l.toFinset, r.length) = totalChars l := List.sum_toFinset _ hl
  constructor
  · rintro ⟨hage,hcount,hbytes⟩
    exact ⟨fun ms hms r hr => hage ms hms r (List.mem_toFinset.mpr hr),
      fun n hn => hcard ▸ hcount n hn,fun n hn => hsum ▸ hbytes n hn⟩
  · rintro ⟨hage,hcount,hbytes⟩
    exact ⟨fun ms hms r hr => hage ms hms r (List.mem_toFinset.mp hr),
      fun n hn => hcard.symm ▸ hcount n hn,fun n hn => hsum.symm ▸ hbytes n hn⟩

theorem tsMsUtc_le_of_age_le {r x : EventRow} (h : r.age ≤ x.age) : x.tsMsUtc ≤ r.tsMsUtc := by
  have hle : x.stamp ≤ r.stamp := h
  rcases Prod.Lex.toLex_le_toLex.mp hle with h | h
  · exact h.le
  · exact h.1.le

/-- Without a byte bound an older row takes as much room as a newer one. -/
theorem exchanges_allowed (h : eff.maxBytes = none) : Exchanges EventRow.age (Allowed eff nowMs) := by
  intro s r x hx hrx hin
  refine ⟨fun ms hms y hy => ?_,fun n hn => ?_,fun n hn => ?_⟩
  · rcases Finset.mem_insert.mp hy with rfl | hy
    · have hold := hin.age ms hms x (Finset.mem_insert_self x s)
      have hts := Int64.le_iff_toInt_le.mp (tsMsUtc_le_of_age_le hrx)
      omega
    · exact hin.age ms hms y (Finset.mem_insert_of_mem hy)
  · have hcard := hin.count n hn
    rw [Finset.card_insert_of_notMem hx] at hcard
    exact le_trans (Int.ofNat_le.mpr (Finset.card_insert_le r s)) hcard
  · rw [h] at hn
    cases hn

end Bounds

namespace ColdStore

variable {s s' : ColdStore} {p : Pair} {batch : List Event}

/-- The rows of a pair, as a set. -/
noncomputable def pairRows (s : ColdStore) (p : Pair) : Finset EventRow := (s.newestFirst p).toFinset

@[simp] theorem mem_pairRows {r : EventRow} : r ∈ s.pairRows p ↔ r ∈ s.events.rows ∧ r.pair = p := by
  rw [pairRows,List.mem_toFinset,mem_newestFirst]

theorem injOn_age (s : ColdStore) (p : Pair) : Set.InjOn EventRow.age (s.pairRows p : Set EventRow) :=
  fun _ ha _ hb h => List.inj_on_of_nodup_map s.nodup_ages (mem_pairRows.mp ha).1 (mem_pairRows.mp hb).1 h

/-- The rows of a batch for a pair. -/
noncomputable def batchRows (batch : List Event) (p : Pair) : Finset EventRow :=
  ((batch.filter fun e => e.pair = p).map Event.toRow).toFinset

theorem mem_batchRows {r : EventRow} :
    r ∈ batchRows batch p ↔ r ∈ batch.map Event.toRow ∧ r.pair = p := by
  simp only [batchRows,List.mem_toFinset,List.mem_map,List.mem_filter,decide_eq_true_eq]
  constructor
  · rintro ⟨e,⟨he,hp⟩,rfl⟩
    exact ⟨⟨e,he,rfl⟩,hp⟩
  · rintro ⟨⟨e,he,rfl⟩,hp⟩
    exact ⟨e,⟨he,hp⟩,rfl⟩

/-- No two rows of a list share their id. -/
def OneRow (rows : List EventRow) : Prop := ∀ r ∈ rows, ∀ r' ∈ rows, r.eventId = r'.eventId → r = r'

theorem mem_append_iff {r : EventRow} (hone : OneRow (s.events.rows ++ batch.map Event.toRow)) :
    r ∈ (s.append batch).events.rows ↔ r ∈ s.events.rows ∨ r ∈ batch.map Event.toRow := by
  rw [ColdStore.mem_append]
  constructor
  · rintro (hr | ⟨-,e,he,rfl⟩)
    · exact Or.inl hr
    · exact Or.inr (List.mem_map_of_mem (mem_of_find_id he).1)
  · rintro (hr | hr)
    · exact Or.inl hr
    · by_cases hold : ∃ x ∈ s.events.rows, x.eventId = r.eventId
      · obtain ⟨x,hx,hid⟩ := hold
        have heq := hone x (List.mem_append_left _ hx) r (List.mem_append_right _ hr) hid
        exact Or.inl (heq ▸ hx)
      · obtain ⟨e,he,rfl⟩ := List.mem_map.mp hr
        refine Or.inr ⟨fun x hx hid => hold ⟨x,hx,hid⟩,?_⟩
        have hfound : (batch.find? fun x => x.eventId = e.eventId).isSome := by
          rw [List.find?_isSome]
          exact ⟨e,he,by simp⟩
        obtain ⟨e',he'⟩ := Option.isSome_iff_exists.mp hfound
        obtain ⟨hmem,hid⟩ := mem_of_find_id he'
        exact ⟨e',he',hone _ (List.mem_append_right _ (List.mem_map_of_mem hmem)) _
          (List.mem_append_right _ hr) hid⟩

theorem pairRows_append (hone : OneRow (s.events.rows ++ batch.map Event.toRow)) (p : Pair) :
    (s.append batch).pairRows p = s.pairRows p ∪ batchRows batch p := by
  ext r
  rw [mem_pairRows,mem_append_iff hone,Finset.mem_union,mem_pairRows,mem_batchRows]
  tauto

theorem newestFirst_of_pairRows (h : s'.pairRows p = s.pairRows p) :
    s'.newestFirst p = s.newestFirst p := by
  refine (s'.newestFirst_ascending p).ext (s.newestFirst_ascending p) fun r => ?_
  rw [← List.mem_toFinset,← List.mem_toFinset]
  exact Finset.ext_iff.mp h r

/-- A window depends on the rows alone. -/
theorem queryWindow_congr (h : ∀ r, r ∈ s'.events.rows ↔ r ∈ s.events.rows) (filter : WindowFilter)
    (anchor : Option Anchor) : s'.queryWindow filter anchor = s.queryWindow filter anchor := by
  have hnd : ∀ t : ColdStore, (t.events.rows.map EventRow.stamp).Nodup := fun t => t.nodup_ages
  have hrows : ∀ q : EventRow → Bool, orderBy EventRow.stamp (s'.events.rows.filter q) =
      orderBy EventRow.stamp (s.events.rows.filter q) := by
    intro q
    refine (orderBy_ascending ((hnd s').sublist (List.filter_sublist.map _))).ext
      (orderBy_ascending ((hnd s).sublist (List.filter_sublist.map _))) fun r => ?_
    rw [mem_orderBy,mem_orderBy,List.mem_filter,List.mem_filter,h]
  simp only [queryWindow,hrows]

end ColdStore

section Sweep

variable {policies : List RetentionPolicy} {nowMs : Int64} {st : Stores}

/-- A real sweep keeps of each pair the front that is within its bounds. -/
theorem pairRows_sweep (hcount : ∀ q ∈ policies, ∀ n, q.maxCount = some n → 0 ≤ n.toInt)
    (hbytes : ∀ q ∈ policies, ∀ n, q.maxBytes = some n → 0 ≤ n.toInt)
    (hsql : SqlCountable st.cold.events.rows) (hdel : ∀ p, Deletable policies nowMs st p) (p : Pair) :
    (sweep policies nowMs false st).2.cold.pairRows p =
      retain EventRow.age (Allowed (effOf policies p) nowMs) (st.cold.pairRows p) := by
  have hregular := regular_newestFirst hcount hbytes hsql p
  have hnd : (st.cold.newestFirst p).Nodup := (st.cold.newestFirst_ascending p).nodup_keys.of_map
  rw [pairRows,sweep_newestFirst hdel,pairRows]
  refine (retain_toFinset (st.cold.newestFirst_ascending p) fun j hj => ?_).symm
  rw [le_leftByAll_iff hregular hj,allowed_toFinset (hnd.sublist (List.take_sublist _ _))]

theorem lateBytes_of_none {eff : EffectiveRetention} (h : eff.maxBytes = none) (l : List EventRow) :
    lateBytes eff nowMs l = 0 := by
  rw [lateBytes,overBytes,h]

end Sweep

/-- A sweep by the same policies, not later than `nowMs`, that can delete what it has to; anything
else goes. -/
def SweptBefore (policies : List RetentionPolicy) (nowMs : Int64) (st : Stores) : StoreOp → Prop
  | .sweep policies' earlier dryRun => policies' = policies ∧ earlier ≤ nowMs ∧
      (dryRun = false → ∀ p, Deletable policies earlier st p)
  | _ => True

/-- The store as it would be without sweeps. -/
def unswept (s : ColdStore) (ops : List StoreOp) : ColdStore := s.appendAll (ops.map StoreOp.events)

/-- Rows at the start and rows of the events that come in. -/
def arrived (s : ColdStore) (ops : List StoreOp) : List EventRow :=
  s.events.rows ++ (ops.flatMap StoreOp.events).map Event.toRow

/-- The rows of a pair come in the order of their stamps. -/
def InOrder (s : ColdStore) (ops : List StoreOp) (p : Pair) : Prop :=
  Ascending EventRow.stamp
    (s.oldestFirst p ++ ((ops.flatMap StoreOp.events).filter fun e => e.pair = p).map Event.toRow)

/-- What may come into a store: one row under an id, not more than SQLite counts, and where a byte
bound applies, in order. -/
structure Orderly (policies : List RetentionPolicy) (s : ColdStore) (ops : List StoreOp) : Prop where
  oneRow : OneRow (arrived s ops)
  countable : SqlCountable (arrived s ops)
  inOrder : ∀ p, (effOf policies p).maxBytes = none ∨ InOrder s ops p

/-- The store against the one without sweeps. -/
structure Trails (policies : List RetentionPolicy) (nowMs : Int64) (s full : ColdStore) : Prop where
  latest : s.latest = full.latest
  subset : s.events.rows ⊆ full.events.rows
  kept : ∀ p, retain EventRow.age (Allowed (effOf policies p) nowMs) (s.pairRows p) =
    retain EventRow.age (Allowed (effOf policies p) nowMs) (full.pairRows p)

section Run

variable {policies : List RetentionPolicy} {nowMs : Int64} {st : Stores} {s full : ColdStore}
  {ops : List StoreOp} {batch : List Event}

theorem SqlCountable.of_subset {l l' : List EventRow} (h : SqlCountable l) (hnd : l'.Nodup)
    (hsub : l' ⊆ l) : SqlCountable l' := by
  obtain ⟨l'',hperm,hsublist⟩ := hnd.subperm hsub
  have hcountable := h.sublist hsublist
  have hchars : totalChars l'' = totalChars l' := (hperm.map fun r : EventRow => r.length).sum_eq
  exact ⟨hperm.length_eq ▸ hcountable.rows,hchars ▸ hcountable.chars⟩

theorem Trails.pairRows_subset (h : Trails policies nowMs s full) (p : Pair) :
    s.pairRows p ⊆ full.pairRows p := fun r hr => by
  rw [mem_pairRows] at hr ⊢
  exact ⟨h.subset hr.1,hr.2⟩

theorem Orderly.oneRow_append (h : Orderly policies full (.append batch::ops)) :
    OneRow (full.events.rows ++ batch.map Event.toRow) := by
  have hsub : full.events.rows ++ batch.map Event.toRow ⊆ arrived full (.append batch::ops) := by
    rw [arrived,List.flatMap_cons,List.map_append,← List.append_assoc]
    exact List.subset_append_left _ _
  exact fun r hr r' hr' => h.oneRow r (hsub hr) r' (hsub hr')

theorem InOrder.append {p : Pair} (hone : OneRow (full.events.rows ++ batch.map Event.toRow))
    (h : InOrder full (.append batch::ops) p) : InOrder (full.append batch) ops p := by
  unfold InOrder at h ⊢
  rw [List.flatMap_cons,List.filter_append,List.map_append,← List.append_assoc] at h
  have hfront := h.sublist (List.sublist_append_left _ _)
  have hsame : (full.append batch).oldestFirst p =
      full.oldestFirst p ++ ((StoreOp.append batch).events.filter fun e => e.pair = p).map Event.toRow := by
    have hnd : ((full.append batch).events.rows.map EventRow.stamp).Nodup := (full.append batch).nodup_ages
    refine (orderBy_ascending (hnd.sublist (List.filter_sublist.map _))).ext hfront fun r => ?_
    have hrows := mem_append_iff (r := r) hone
    have hnew : r ∈ batchRows batch p ↔ r ∈ batch.map Event.toRow ∧ r.pair = p := mem_batchRows
    rw [batchRows,List.mem_toFinset] at hnew
    rw [mem_orderBy,List.mem_filter,List.mem_append,hrows,ColdStore.oldestFirst,mem_orderBy,List.mem_filter]
    simp only [ofPair,decide_eq_true_eq,StoreOp.events,hnew]
    tauto
  rwa [hsame]

theorem Orderly.append (h : Orderly policies full (.append batch::ops)) :
    Orderly policies (full.append batch) ops := by
  have hsub : (arrived (full.append batch) ops).Sublist (arrived full (.append batch::ops)) := by
    rw [arrived,arrived,List.flatMap_cons,List.map_append,← List.append_assoc]
    exact (KeyTable.insertAll_sublist _ _).append_right _
  refine ⟨fun r hr r' hr' => h.oneRow r (hsub.subset hr) r' (hsub.subset hr'),
    h.countable.sublist hsub,fun p => ?_⟩
  exact (h.inOrder p).imp_right fun hp => hp.append h.oneRow_append

/-- Appending keeps the store in step. -/
theorem Trails.append (h : Trails policies nowMs s full)
    (hord : Orderly policies full (.append batch::ops)) :
    Trails policies nowMs (s.append batch) (full.append batch) := by
  have hone := hord.oneRow_append
  have hones : OneRow (s.events.rows ++ batch.map Event.toRow) := by
    have hsub : s.events.rows ++ batch.map Event.toRow ⊆ full.events.rows ++ batch.map Event.toRow :=
      List.append_subset.mpr ⟨List.subset_append_of_subset_left _ h.subset,List.subset_append_right _ _⟩
    exact fun r hr r' hr' => hone r (hsub hr) r' (hsub hr')
  refine ⟨?_,fun r hr => ?_,fun p => ?_⟩
  · exact congrArg (fun l => upsertLatest l batch) h.latest
  · rw [mem_append_iff hones] at hr
    rw [mem_append_iff hone]
    exact hr.imp_left fun hr => h.subset hr
  · have hanti := allowed_antitone (effOf policies p) nowMs
    rw [pairRows_append hones,pairRows_append hone]
    rcases hord.inOrder p with hnone | horder
    · exact retain_union_congr hanti
        (settled_of_exchanges hanti (exchanges_allowed hnone) (s.injOn_age p))
        (settled_of_exchanges hanti (exchanges_allowed hnone) (full.injOn_age p)) (h.kept p)
    · have hfront : ∀ r ∈ full.pairRows p, ∀ x ∈ batchRows batch p, x.age < r.age := by
        intro r hr x hx
        have hold : r ∈ full.oldestFirst p := by
          rw [oldestFirst_eq,List.mem_reverse,mem_newestFirst]
          exact mem_pairRows.mp hr
        have hnew : x ∈ ((batch ++ ops.flatMap StoreOp.events).filter fun e => e.pair = p).map
            Event.toRow := by
          rw [List.filter_append,List.map_append]
          exact List.mem_append_left _ (List.mem_toFinset.mp hx)
        exact (List.pairwise_append.mp horder).2.2 r hold x hnew
      exact retain_union_congr hanti
        (settled_of_in_front fun r hr => hfront r (h.pairRows_subset p hr))
        (settled_of_in_front hfront) (h.kept p)

/-- So does an earlier sweep. -/
theorem Trails.sweep (h : Trails policies nowMs st.cold full) (hcountable : SqlCountable full.events.rows)
    (hcount : ∀ q ∈ policies, ∀ n, q.maxCount = some n → 0 ≤ n.toInt)
    (hbytes : ∀ q ∈ policies, ∀ n, q.maxBytes = some n → 0 ≤ n.toInt) {earlier : Int64}
    (hle : earlier ≤ nowMs) (hdel : ∀ p, Deletable policies earlier st p) :
    Trails policies nowMs (Percept.sweep policies earlier false st).2.cold full := by
  have hsql := hcountable.of_subset st.cold.events.nodup.of_map h.subset
  refine ⟨(sweep_latest policies earlier false st).trans h.latest,
    fun r hr => h.subset ((sweep_sublist policies earlier st).subset hr),fun p => ?_⟩
  rw [pairRows_sweep hcount hbytes hsql hdel,
    retain_retain (allowed_antitone _ _) fun _ hin => hin.earlier hle]
  exact h.kept p

/-- A run keeps the store in step with the one that is never swept. -/
theorem Trails.run (h : Trails policies nowMs st.cold full) (hord : Orderly policies full ops)
    (hcount : ∀ q ∈ policies, ∀ n, q.maxCount = some n → 0 ≤ n.toInt)
    (hbytes : ∀ q ∈ policies, ∀ n, q.maxBytes = some n → 0 ≤ n.toInt)
    (hops : Runs.EachStep Stores.apply (SweptBefore policies nowMs) st ops) :
    Trails policies nowMs (st.run ops).cold (unswept full ops) ∧ SqlCountable (unswept full ops).events.rows := by
  induction ops generalizing st full with
  | nil => exact ⟨h,hord.countable.sublist (List.sublist_append_left _ _)⟩
  | cons op ops ih =>
    obtain ⟨hop,hrest⟩ := hops
    cases op with
    | append batch => exact ih (h.append hord) hord.append hrest
    | appendVectors records => exact ih h ⟨hord.oneRow,hord.countable,hord.inOrder⟩ hrest
    | sweep policies' earlier dryRun =>
      obtain ⟨rfl,hle,hdel⟩ := hop
      refine ih ?_ ⟨hord.oneRow,hord.countable,hord.inOrder⟩ hrest
      cases dryRun with
      | true =>
        have hsame : (Percept.sweep policies' earlier true st).2 = st := sweepPairs_dry_snd _ _ _
        rw [Stores.apply,hsame]
        exact h
      | false =>
        exact h.sweep (hord.countable.sublist (List.sublist_append_left _ _)) hcount hbytes hle (hdel rfl)

theorem trails_self (policies : List RetentionPolicy) (nowMs : Int64) (s : ColdStore) :
    Trails policies nowMs s s := ⟨rfl,List.Subset.refl _,fun _ => rfl⟩

theorem mem_rows_of_newestFirst (h : ∀ p, s.newestFirst p = full.newestFirst p) (r : EventRow) :
    r ∈ s.events.rows ↔ r ∈ full.events.rows := by
  have hs : r ∈ s.newestFirst r.pair ↔ r ∈ s.events.rows ∧ r.pair = r.pair := mem_newestFirst
  have hf : r ∈ full.newestFirst r.pair ↔ r ∈ full.events.rows ∧ r.pair = r.pair := mem_newestFirst
  rw [and_iff_left rfl] at hs hf
  rw [← hs,← hf,h]

end Run

/-- One row for each pair. -/
def keepOne : RetentionPolicy := { maxCount := some 1 }

/-- The second event is older than the first, and a sweep comes before the third. -/
def sweptBetween : List StoreOp :=
  [.append [.required 1 "s" "k" 7 .null,.required 2 "s" "k" 4 .null],.sweep [keepOne] 8 false,
    .append [.required 3 "s" "k" 9 .null]]

end Percept
