import Percept.SweepSpec
import Percept.Lib.Runs

/-! The `latest` table against the event log. `append` fills the log by event id and the cache
by time, and a sweep deletes from the log alone, so the cache follows the log only as long as
the newest event of a pair gets into the log and stays there. -/
namespace Percept

open OrderBy ColdStore

/-- The first of the newest events that a batch has for a pair. -/
def firstNewest (p : Pair) (batch : List Event) : Option Event :=
  batch.find? fun e => e.pair = p ∧ ∀ x ∈ batch, x.pair = p → x.tsMsUtc ≤ e.tsMsUtc

namespace ColdStore

variable {s : ColdStore} {p : Pair} {batch : List Event}

theorem latestInBatch_concat (batch : List Event) (e : Event) (p : Pair) :
    latestInBatch (batch ++ [e]) p =
      if e.pair = p then some (newer (latestInBatch batch p) e) else latestInBatch batch p := by
  rw [latestInBatch,List.foldl_concat,← latestInBatch]
  by_cases h : e.pair = p
  · rw [h,Function.update_self,if_pos rfl]
  · rw [Function.update_of_ne (Ne.symm h),if_neg h]

/-- The collapsed batch has an event of the pair that is newer than those before it and not
older than those behind it. -/
theorem latestInBatch_spec (batch : List Event) (p : Pair) :
    match latestInBatch batch p with
    | none => ∀ e ∈ batch, e.pair ≠ p
    | some w => w.pair = p ∧ ∃ pre post, batch = pre ++ w::post ∧
        (∀ e ∈ pre, e.pair = p → e.tsMsUtc < w.tsMsUtc) ∧
        ∀ e ∈ post, e.pair = p → e.tsMsUtc ≤ w.tsMsUtc := by
  induction batch using List.reverseRecOn with
  | nil => simp [latestInBatch]
  | append_singleton batch e ih =>
    rw [latestInBatch_concat]
    by_cases hp : e.pair = p
    · rw [if_pos hp]
      cases hw : latestInBatch batch p with
      | none =>
        rw [hw] at ih
        exact ⟨hp,batch,[],rfl,fun x hx hxp => absurd hxp (ih x hx),by simp⟩
      | some w =>
        rw [hw] at ih
        obtain ⟨hwp,pre,post,rfl,hpre,hpost⟩ := ih
        by_cases hlt : w.tsMsUtc < e.tsMsUtc
        · simp only [newer,if_pos hlt]
          refine ⟨hp,pre ++ w::post,[],rfl,fun x hx hxp => ?_,by simp⟩
          rcases List.mem_append.mp hx with hx | hx
          · exact (hpre x hx hxp).trans hlt
          · rcases List.mem_cons.mp hx with rfl | hx
            · exact hlt
            · exact (hpost x hx hxp).trans_lt hlt
        · simp only [newer,if_neg hlt]
          refine ⟨hwp,pre,post ++ [e],by simp,hpre,fun x hx hxp => ?_⟩
          rcases List.mem_append.mp hx with hx | hx
          · exact hpost x hx hxp
          · exact List.mem_singleton.mp hx ▸ not_lt.mp hlt
    · rw [if_neg hp]
      cases hw : latestInBatch batch p with
      | none =>
        rw [hw] at ih
        intro x hx
        rcases List.mem_append.mp hx with hx | hx
        · exact ih x hx
        · exact List.mem_singleton.mp hx ▸ hp
      | some w =>
        rw [hw] at ih
        obtain ⟨hwp,pre,post,rfl,hpre,hpost⟩ := ih
        refine ⟨hwp,pre,post ++ [e],by simp,hpre,fun x hx hxp => ?_⟩
        rcases List.mem_append.mp hx with hx | hx
        · exact hpost x hx hxp
        · exact absurd (List.mem_singleton.mp hx ▸ hxp) hp

theorem latestInBatch_eq (batch : List Event) (p : Pair) :
    latestInBatch batch p = firstNewest p batch := by
  have hspec := latestInBatch_spec batch p
  symm
  cases hw : latestInBatch batch p with
  | none =>
    rw [hw] at hspec
    exact List.find?_eq_none.mpr fun e he => by simp [hspec e he]
  | some w =>
    rw [hw] at hspec
    obtain ⟨hwp,pre,post,rfl,hpre,hpost⟩ := hspec
    have hmax : ∀ x ∈ pre ++ w::post, x.pair = p → x.tsMsUtc ≤ w.tsMsUtc := by
      intro x hx hxp
      rcases List.mem_append.mp hx with hx | hx
      · exact (hpre x hx hxp).le
      · rcases List.mem_cons.mp hx with rfl | hx
        · exact le_rfl
        · exact hpost x hx hxp
    refine List.find?_eq_some_iff_append.mpr ⟨decide_eq_true ⟨hwp,hmax⟩,pre,post,rfl,?_⟩
    intro e he
    have hnot : ¬ (e.pair = p ∧ ∀ x ∈ pre ++ w::post, x.pair = p → x.tsMsUtc ≤ e.tsMsUtc) :=
      fun h => not_le.mpr (hpre e he h.1) (h.2 w (by simp) hwp)
    rw [decide_eq_false hnot,Bool.not_false]

/-- Each cached row is a stored row of its pair, none of the pair is newer, and only a pair
without rows has no cached row. -/
def LatestDerived (s : ColdStore) : Prop := ∀ p,
  (s.latest p = none ↔ ∀ r ∈ s.events.rows, r.pair ≠ p) ∧
  ∀ c, s.latest p = some c → ∃ r ∈ s.events.rows, r.toStoredRow = c ∧ r.pair = p ∧
    ∀ x ∈ s.events.rows, x.pair = p → x.tsMsUtc ≤ r.tsMsUtc

theorem LatestDerived.openInMemory : LatestDerived .openInMemory :=
  fun _ => ⟨by simp [ColdStore.openInMemory],fun _ h => by cases h⟩

/-- The cold fallback then gives an event that the log has under its id. -/
theorem LatestDerived.getById (hs : s.LatestDerived) {sourceId kind : String} {e : Event}
    (he : s.latestEvent sourceId kind = some e) : s.getById e.eventId = some e := by
  obtain ⟨c,hc,rfl⟩ := Option.map_eq_some_iff.mp he
  obtain ⟨r,hr,rfl,_⟩ := (hs (sourceId,kind)).2 c hc
  have hlookup : s.events.lookup r.eventId = some r := KeyTable.lookup_eq_some_iff.mpr ⟨hr,rfl⟩
  change (s.events.lookup r.eventId).map _ = _
  rw [hlookup,Option.map_some]

/-- An event that becomes the newest of its pair has a new id, and the batch does not use
this id for anything else before it. -/
def FreshNewest (s : ColdStore) (batch : List Event) : Prop :=
  ∀ p w, firstNewest p batch = some w →
    (∀ r ∈ s.events.rows, r.pair = p → r.tsMsUtc < w.tsMsUtc) →
      (∀ r ∈ s.events.rows, r.eventId ≠ w.eventId) ∧
        ∃ e, batch.find? (fun e => e.eventId = w.eventId) = some e ∧ e.toStored = w.toStored

theorem mem_append {r : EventRow} : r ∈ (s.append batch).events.rows ↔ r ∈ s.events.rows ∨
    ((∀ x ∈ s.events.rows, x.eventId ≠ r.eventId) ∧
      ∃ e, batch.find? (fun e => e.eventId = r.eventId) = some e ∧ e.toRow = r) := by
  rw [append,insertEvents,KeyTable.mem_insertAll,List.find?_map,Option.map_eq_some_iff]
  simp only [List.mem_map,not_exists,not_and]
  rfl

theorem mem_of_find_id {e : Event} {i : Ulid}
    (h : batch.find? (fun e => e.eventId = i) = some e) : e ∈ batch ∧ e.eventId = i :=
  ⟨List.mem_of_find?_eq_some h,by simpa using List.find?_some h⟩

theorem firstNewest_spec {w : Event} (h : firstNewest p batch = some w) :
    w.pair = p ∧ ∀ x ∈ batch, x.pair = p → x.tsMsUtc ≤ w.tsMsUtc := by
  have hsome := List.find?_some h
  simpa using hsome

theorem firstNewest_eq_none (h : firstNewest p batch = none) : ∀ e ∈ batch, e.pair ≠ p := by
  have hspec := latestInBatch_spec batch p
  rwa [latestInBatch_eq,h] at hspec

theorem latest_append (s : ColdStore) (batch : List Event) (p : Pair) :
    (s.append batch).latest p = match firstNewest p batch with
      | none => s.latest p
      | some w => some (upsert (s.latest p) w) := by
  rw [append,← latestInBatch_eq]
  rfl

theorem upsert_of_older (hs : s.LatestDerived) {w : Event}
    (hold : ∀ r ∈ s.events.rows, r.pair = p → r.tsMsUtc < w.tsMsUtc) :
    upsert (s.latest p) w = w.toStored := by
  cases hc : s.latest p with
  | none => rfl
  | some c =>
    obtain ⟨r,hr,rfl,hrp,_⟩ := (hs p).2 c hc
    exact if_pos (hold r hr hrp)

theorem upsert_of_newer (hs : s.LatestDerived) {w : Event}
    (hnot : ¬ ∀ r ∈ s.events.rows, r.pair = p → r.tsMsUtc < w.tsMsUtc) :
    ∃ c, s.latest p = some c ∧ upsert (s.latest p) w = c ∧ w.tsMsUtc ≤ c.tsMsUtc := by
  push Not at hnot
  obtain ⟨r,hr,hrp,hle⟩ := hnot
  cases hc : s.latest p with
  | none => exact absurd hrp ((hs p).1.mp hc r hr)
  | some c =>
    obtain ⟨x,_,rfl,_,hmax⟩ := (hs p).2 c hc
    have hwx : w.tsMsUtc ≤ x.tsMsUtc := hle.trans (hmax r hr hrp)
    exact ⟨x.toStoredRow,rfl,if_neg (not_lt.mpr hwx),hwx⟩

/-- A batch keeps the cache in step with the log in this case only. -/
theorem latestDerived_append_iff (hs : s.LatestDerived) (batch : List Event) :
    (s.append batch).LatestDerived ↔ s.FreshNewest batch := by
  constructor
  · intro h p w hw hold
    have hlatest : (s.append batch).latest p = some w.toStored := by
      simp only [latest_append,hw,upsert_of_older hs hold]
    obtain ⟨r,hr,hrw,hrp,_⟩ := (h p).2 _ hlatest
    rcases mem_append.mp hr with hr | ⟨hnew,e,he,rfl⟩
    · have hts : r.tsMsUtc = w.tsMsUtc := congrArg StoredRow.tsMsUtc hrw
      exact absurd (hold r hr hrp) (by rw [hts]; exact lt_irrefl _)
    · have hid : e.toRow.eventId = w.eventId := congrArg StoredRow.eventId hrw
      rw [hid] at hnew he
      exact ⟨hnew,e,he,hrw⟩
  · intro h p
    have hnewRow : ∀ {w}, firstNewest p batch = some w → ∀ {e i},
        batch.find? (fun e => e.eventId = i) = some e → e.pair = p → e.tsMsUtc ≤ w.tsMsUtc :=
      fun hw _ _ he hep => (firstNewest_spec hw).2 _ (mem_of_find_id he).1 hep
    simp only [latest_append]
    cases hw : firstNewest p batch with
    | none =>
      simp only
      have hold : ∀ r, r ∈ (s.append batch).events.rows → r.pair = p → r ∈ s.events.rows := by
        intro r hr hrp
        rcases mem_append.mp hr with hr | ⟨_,e,he,rfl⟩
        · exact hr
        · exact absurd hrp (firstNewest_eq_none hw e (mem_of_find_id he).1)
      refine ⟨(hs p).1.trans ⟨fun hn r hr hrp => hn r (hold r hr hrp) hrp,
        fun hn r hr => hn r (mem_append.mpr (Or.inl hr))⟩,fun c hc => ?_⟩
      obtain ⟨r,hr,hrc,hrp,hmax⟩ := (hs p).2 c hc
      exact ⟨r,mem_append.mpr (Or.inl hr),hrc,hrp,fun x hx hxp => hmax x (hold x hx hxp) hxp⟩
    | some w =>
      simp only
      obtain ⟨hwp,_⟩ := firstNewest_spec hw
      -- either way a row of the pair is cached that is in the log
      suffices hrow : ∃ r ∈ (s.append batch).events.rows,
          r.toStoredRow = upsert (s.latest p) w ∧ r.pair = p ∧
            ∀ x ∈ (s.append batch).events.rows, x.pair = p → x.tsMsUtc ≤ r.tsMsUtc by
        obtain ⟨r,hr,hrc,hrp,hmax⟩ := hrow
        refine ⟨⟨fun hn => absurd hn (Option.some_ne_none _),fun hn => absurd hrp (hn r hr)⟩,fun c hc => ?_⟩
        exact ⟨r,hr,hrc.trans (Option.some.inj hc),hrp,hmax⟩
      by_cases hold : ∀ r ∈ s.events.rows, r.pair = p → r.tsMsUtc < w.tsMsUtc
      · obtain ⟨hfresh,e,he,hew⟩ := h p w hw hold
        have hid : e.toRow.eventId = w.eventId := congrArg StoredRow.eventId hew
        have hep : e.pair = p := (congrArg StoredRow.pair hew).trans hwp
        have hts : e.tsMsUtc = w.tsMsUtc := congrArg StoredRow.tsMsUtc hew
        refine ⟨e.toRow,mem_append.mpr (Or.inr ⟨hid ▸ hfresh,e,hid ▸ he,rfl⟩),
          hew.trans (upsert_of_older hs hold).symm,hep,fun x hx hxp => ?_⟩
        rcases mem_append.mp hx with hx | ⟨_,e',he',rfl⟩
        · exact (hold x hx hxp).le.trans_eq hts.symm
        · exact (hnewRow hw he' hxp).trans_eq hts.symm
      · obtain ⟨c,hc,hup,hle⟩ := upsert_of_newer hs hold
        obtain ⟨r,hr,rfl,hrp,hmax⟩ := (hs p).2 c hc
        refine ⟨r,mem_append.mpr (Or.inl hr),hup.symm,hrp,fun x hx hxp => ?_⟩
        rcases mem_append.mp hx with hx | ⟨_,e',he',rfl⟩
        · exact hmax x hx hxp
        · exact (hnewRow hw he' hxp).trans hle

/-- The place of a row in the log of its pair: how many rows are newer. -/
def place (s : ColdStore) (p : Pair) (c : StoredRow) : ℕ :=
  s.events.rows.countP fun x => ofPair p x && c.stamp < x.stamp

theorem mem_take_newestFirst_iff {r : EventRow} (hr : r ∈ s.newestFirst p) (j : ℕ) :
    r ∈ (s.newestFirst p).take j ↔ s.place p r.toStoredRow < j := by
  rw [(s.newestFirst_ascending p).mem_take_iff hr,(s.newestFirst_perm p).countP_eq,
    List.countP_filter,place]
  apply iff_of_eq
  congr 2
  funext x
  exact Bool.and_comm _ _

end ColdStore

section Sweep

variable (policies : List RetentionPolicy) (nowMs : Int64)

/-- A row is old neither by age nor by place, and it fits into the byte budget together with
the newer rows of its pair. The byte bound deletes nothing where its statement fails. -/
structure Spared (st : Stores) (p : Pair) (c : StoredRow) : Prop where
  age : ∀ maxAgeMs, (effOf policies p).maxAgeMs = some maxAgeMs →
    saturatingSub nowMs maxAgeMs ≤ c.tsMsUtc
  count : ∀ maxCount, (effOf policies p).maxCount = some maxCount →
    st.cold.place p c+dropCount maxCount (leftByAge (effOf policies p) nowMs (st.cold.newestFirst p)) <
      leftByAge (effOf policies p) nowMs (st.cold.newestFirst p)
  bytes : ∀ maxBytes, (effOf policies p).maxBytes = some maxBytes → Deletable policies nowMs st p →
    min (((st.cold.newestFirst p).take (st.cold.place p c+1)).map (·.length)).sum (2^63-1) ≤
      maxBytes.toInt

variable {policies nowMs} {st : Stores} {p : Pair}

theorem lt_fitting_iff (maxBytes : Int64) (running i : ℕ) (l : List EventRow) (hi : i < l.length) :
    i < fitting maxBytes running l ↔
      (min (running+((l.take (i+1)).map (·.length)).sum) (2^63-1) : ℕ) ≤ maxBytes.toInt := by
  induction l generalizing running i with
  | nil => simp at hi
  | cons r l ih =>
    simp only [fitting,List.take_succ_cons,List.map_cons,List.sum_cons]
    generalize hsum : ((l.take i).map (·.length)).sum = n
    split
    next hover =>
      have hgrow : min (running+r.length) (2^63-1) ≤ min (running+(r.length+n)) (2^63-1) := by omega
      have hlt : maxBytes.toInt < (min (running+(r.length+n)) (2^63-1) : ℕ) :=
        hover.trans_le (by exact_mod_cast hgrow)
      simpa using hlt
    next hfits =>
      cases i with
      | zero =>
        obtain rfl : n = 0 := by simpa using hsum.symm
        exact iff_of_true (Nat.succ_pos _) (not_lt.mp hfits)
      | succ i =>
        have hsat : min (min (running+r.length) (2^63-1)+n) (2^63-1) =
            min (running+(r.length+n)) (2^63-1) := by omega
        rw [Nat.add_lt_add_iff_right,ih _ _ (by simpa using hi),hsum,hsat]

theorem lt_leftByCount_iff {eff : EffectiveRetention} {l : List EventRow} {i : ℕ} :
    i < leftByCount eff nowMs l ↔ i < leftByAge eff nowMs l ∧ ∀ maxCount,
      eff.maxCount = some maxCount →
        i+dropCount maxCount (leftByAge eff nowMs l) < leftByAge eff nowMs l := by
  cases h : eff.maxCount with
  | none => simp [leftByCount,overCount,h]
  | some maxCount =>
    simp only [leftByCount,overCount,h,Option.some.injEq,forall_eq']
    omega

theorem lt_keptRows_iff {eff : EffectiveRetention} {l : List EventRow} {i : ℕ} :
    i < keptRows nowMs eff l ↔ i < leftByCount eff nowMs l ∧ ∀ maxBytes,
      eff.maxBytes = some maxBytes → lateBytes eff nowMs l ≤ sqliteMaxVariables →
        i < keptByBytes maxBytes l := by
  have hlate : lateBytes eff nowMs l = leftByCount eff nowMs l-(l.length-overBytes eff l) :=
    overBytes_take l (leftByCount_le eff nowMs l)
  have hle := leftByCount_le eff nowMs l
  unfold keptRows
  cases h : eff.maxBytes with
  | none =>
    simp only [overBytes,h] at hlate
    simp only [reduceCtorEq,false_implies,implies_true,and_true]
    split <;> omega
  | some maxBytes =>
    have hfit : keptByBytes maxBytes l ≤ l.length := fitting_le _ _ _
    simp only [overBytes,h] at hlate
    simp only [Option.some.injEq,forall_eq']
    split <;> omega

theorem lt_leftByAge_iff {eff : EffectiveRetention} {s : ColdStore} {r : EventRow}
    (hr : r ∈ s.newestFirst p) :
    s.place p r.toStoredRow < leftByAge eff nowMs (s.newestFirst p) ↔ ∀ maxAgeMs,
      eff.maxAgeMs = some maxAgeMs → saturatingSub nowMs maxAgeMs ≤ r.tsMsUtc := by
  rw [← mem_take_newestFirst_iff hr,leftByAge]
  cases h : eff.maxAgeMs with
  | none =>
    simp only [overAge,h]
    simpa using hr
  | some maxAgeMs =>
    have hle : keptByAge (saturatingSub nowMs maxAgeMs) (s.newestFirst p) ≤
        (s.newestFirst p).length := List.countP_le_length
    have hinit := filter_eq_take (p := fun r : EventRow => saturatingSub nowMs maxAgeMs ≤ r.tsMsUtc)
      ((s.newestFirst_ts p).imp fun {a b} hab hb => by
        simp only [decide_eq_true_eq] at hb ⊢
        exact hb.trans hab)
    simp only [overAge,h,Option.some.injEq,forall_eq']
    rw [Nat.sub_sub_self hle,keptByAge,← hinit,List.mem_filter,decide_eq_true_eq]
    exact and_iff_right hr

/-- The rows that a pass leaves are those that every bound spares. -/
theorem mem_take_keptOf_iff {r : EventRow} (hr : r ∈ st.cold.newestFirst p) :
    r ∈ (st.cold.newestFirst p).take (keptOf policies nowMs st p) ↔
      Spared policies nowMs st p r.toStoredRow := by
  have hplace : st.cold.place p r.toStoredRow < (st.cold.newestFirst p).length := by
    rw [← mem_take_newestFirst_iff hr,List.take_length]
    exact hr
  rw [mem_take_newestFirst_iff hr,keptOf,lt_keptRows_iff,lt_leftByCount_iff,lt_leftByAge_iff hr]
  simp only [keptByBytes,lt_fitting_iff _ _ _ _ hplace,Nat.zero_add]
  constructor
  · rintro ⟨⟨hage,hcount⟩,hbytes⟩
    exact ⟨hage,hcount,hbytes⟩
  · exact fun h => ⟨⟨h.age,h.count⟩,h.bytes⟩

/-- A real sweep keeps the cache in step with the log exactly when it spares the cached row of
every pair it works on. -/
theorem latestDerived_sweep_iff (hs : st.cold.LatestDerived) :
    (sweep policies nowMs false st).2.cold.LatestDerived ↔
      ∀ p ∈ sweptPairs policies nowMs st st.cold.distinctSourceKindPairs,
        ∀ c, st.cold.latest p = some c → Spared policies nowMs st p c := by
  have hcut := sweepPairs_cut policies nowMs
    (nodup_distinctSourceKindPairs st.cold) ⟨[],0,0,[],false⟩ st
  rw [← sweep] at hcut
  generalize (sweep policies nowMs false st).2.cold = s' at hcut ⊢
  generalize sweptPairs policies nowMs st st.cold.distinctSourceKindPairs = pairs at hcut ⊢
  constructor
  · intro h p hp c hc
    obtain ⟨r,hr,hrc,hrp,_⟩ := (h p).2 c (hcut.latest ▸ hc)
    have hkept : r ∈ (st.cold.newestFirst p).take (keptOf policies nowMs st p) := by
      rw [← hcut.mem p hp]
      exact mem_newestFirst.mpr ⟨hr,hrp⟩
    rw [← hrc]
    exact (mem_take_keptOf_iff (List.mem_of_mem_take hkept)).mp hkept
  · intro h p
    have hcached : ∀ c, st.cold.latest p = some c → ∃ r ∈ s'.events.rows, r.toStoredRow = c ∧
        r.pair = p ∧ ∀ x ∈ s'.events.rows, x.pair = p → x.tsMsUtc ≤ r.tsMsUtc := by
      intro c hc
      obtain ⟨r,hr,rfl,hrp,hmax⟩ := (hs p).2 c hc
      have hlog : r ∈ st.cold.newestFirst p := mem_newestFirst.mpr ⟨hr,hrp⟩
      have hleft : r ∈ s'.newestFirst p := by
        by_cases hp : p ∈ pairs
        · rw [hcut.mem p hp]
          exact (mem_take_keptOf_iff hlog).mpr (h p hp _ hc)
        · rwa [hcut.notMem p hp]
      exact ⟨r,(mem_newestFirst.mp hleft).1,rfl,hrp,
        fun x hx => hmax x (hcut.sublist.subset hx)⟩
    rw [hcut.latest]
    refine ⟨⟨fun hn r hr => (hs p).1.mp hn r (hcut.sublist.subset hr),fun hn => ?_⟩,hcached⟩
    cases hc : st.cold.latest p with
    | none => rfl
    | some c =>
      obtain ⟨r,hr,_,hrp,_⟩ := hcached c hc
      exact absurd hrp (hn r hr)

end Sweep

/-- A cached row is one of its pair. -/
def ColdStore.OwnRows (s : ColdStore) : Prop := ∀ p row, s.latest p = some row → row.pair = p

namespace ColdStore.OwnRows

theorem openInMemory : OwnRows .openInMemory := fun _ _ h => by cases h

theorem append {s : ColdStore} (h : s.OwnRows) (events : List Event) : (s.append events).OwnRows := by
  intro p row hrow
  rw [latest_append] at hrow
  cases hw : firstNewest p events with
  | none =>
    rw [hw] at hrow
    exact h p row hrow
  | some w =>
    have hpair : w.toStored.pair = p := (firstNewest_spec hw).1
    rw [hw] at hrow
    cases hold : s.latest p with
    | none =>
      rw [hold] at hrow
      cases hrow
      exact hpair
    | some old =>
      rw [hold] at hrow
      by_cases hlt : old.tsMsUtc < w.tsMsUtc
      · simp only [upsert,hlt,if_true] at hrow
        cases hrow
        exact hpair
      · simp only [upsert,hlt,if_false] at hrow
        cases hrow
        exact h p row hold

theorem apply {st : Stores} (h : st.cold.OwnRows) (op : StoreOp) : (st.apply op).cold.OwnRows := by
  cases op with
  | append events => exact h.append events
  | appendVectors records => exact h
  | sweep policies nowMs dryRun =>
    intro p row hrow
    rw [Stores.apply,sweep_latest] at hrow
    exact h p row hrow

theorem run {st : Stores} (h : st.cold.OwnRows) (ops : List StoreOp) : (st.run ops).cold.OwnRows := by
  induction ops generalizing st with
  | nil => exact h
  | cons op ops ih => exact ih (h.apply op)

end ColdStore.OwnRows

/-- A batch brings every new newest event of a pair under a new id; a real sweep spares the
cached row of every pair it works on. -/
def KeepsLatest (st : Stores) : StoreOp → Prop
  | .append events => st.cold.FreshNewest events
  | .appendVectors _ => True
  | .sweep policies nowMs dryRun => dryRun = false →
      ∀ p ∈ sweptPairs policies nowMs st st.cold.distinctSourceKindPairs,
        ∀ c, st.cold.latest p = some c → Spared policies nowMs st p c

theorem latestDerived_apply_iff (st : Stores) (op : StoreOp) (hs : st.cold.LatestDerived) :
    (st.apply op).cold.LatestDerived ↔ KeepsLatest st op := by
  cases op with
  | append events => exact latestDerived_append_iff hs events
  | appendVectors records => exact iff_of_true hs trivial
  | sweep policies nowMs dryRun =>
    cases dryRun with
    | true =>
      have hsame : (sweep policies nowMs true st).2 = st := sweepPairs_dry_snd _ _ _
      refine iff_of_true ?_ fun h => Bool.noConfusion h
      rw [Stores.apply,hsame]
      exact hs
    | false => exact (latestDerived_sweep_iff hs).trans ⟨fun h _ => h,fun h => h rfl⟩

/-- The cache is derived from the log in every state of a run exactly when each of its steps
is of the good kind. -/
theorem latest_derived_iff (ops : List StoreOp) :
    Runs.Always Stores.apply (fun st => st.cold.LatestDerived) Stores.openInMemory ops ↔
      Runs.EachStep Stores.apply KeepsLatest Stores.openInMemory ops :=
  Runs.always_iff_eachStep (I := fun _ => True) (fun _ _ _ => trivial)
    (fun st op _ => latestDerived_apply_iff st op) trivial LatestDerived.openInMemory ops

/-- Retention empties the log and leaves the cached row; an id used again gives a cached row
that the log does not have. -/
theorem latest_outlives_log :
    ¬ Runs.Always Stores.apply (fun st => st.cold.LatestDerived) Stores.openInMemory
        [.append [.required 1 "s" "k" 1 .null],
          .sweep [{ maxAge := some (.fromSecs 1) }] 5000 false] ∧
      ¬ Runs.Always Stores.apply (fun st => st.cold.LatestDerived) Stores.openInMemory
        [.append [.required 1 "s" "k" 1 .null],.append [.required 1 "s" "k" 2 .null]] := by
  constructor
  · rintro ⟨_,_,h⟩
    exact absurd ((h ("s","k")).1.mpr (by decide)) (by decide)
  · rintro ⟨_,_,h⟩
    obtain ⟨r,hr,hrc,_⟩ := (h ("s","k")).2 (Event.required 1 "s" "k" 2 .null).toStored rfl
    obtain rfl : r = (Event.required 1 "s" "k" 1 .null).toRow := List.mem_singleton.mp hr
    exact absurd (congrArg StoredRow.tsMsUtc hrc) (by decide)

end Percept
