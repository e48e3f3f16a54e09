import Percept.LatestAgree

/-! `append` on what the writer makes of a stream: how the stream is cut into batches leaves no
trace in the two tables, and an event that is still in the log may come again. -/
namespace Percept

open ColdStore

namespace ColdStore

theorem events_appendAll (s : ColdStore) (batches : List (List Event)) :
    (s.appendAll batches).events = insertEvents s.events batches.flatten := by
  induction batches generalizing s with
  | nil => rfl
  | cons batch batches ih =>
    rw [List.flatten_cons,insertEvents,List.map_append,← KeyTable.insertAll_insertAll]
    exact ih (s.append batch)

theorem mem_appendAll_openInMemory {batches : List (List Event)} {r : EventRow} :
    r ∈ (openInMemory.appendAll batches).events.rows ↔
      ∃ e, batches.flatten.find? (fun e => e.eventId = r.eventId) = some e ∧ e.toRow = r := by
  rw [events_appendAll,insertEvents,KeyTable.mem_insertAll,List.find?_map,Option.map_eq_some_iff]
  refine (or_iff_right List.not_mem_nil).trans ((and_iff_right List.not_mem_nil).trans ?_)
  rfl

theorem latest_appendAll_openInMemory (batches : List (List Event)) (p : Pair) :
    (openInMemory.appendAll batches).latest p = (firstNewest p batches.flatten).map Event.toStored := by
  rw [← latestInBatch_eq]
  exact latest_appendAll (l := []) rfl batches

theorem appendAll_openInMemory_congr {batches batches' : List (List Event)}
    (h : batches'.flatten = batches.flatten) :
    openInMemory.appendAll batches' = openInMemory.appendAll batches := by
  have hevents : (openInMemory.appendAll batches').events = (openInMemory.appendAll batches).events := by
    rw [events_appendAll,events_appendAll,h]
  have hlatest : (openInMemory.appendAll batches').latest = (openInMemory.appendAll batches).latest := by
    funext p
    rw [latest_appendAll_openInMemory,latest_appendAll_openInMemory,h]
  exact congrArg₂ ColdStore.mk hevents hlatest

end ColdStore

/-- The log has the first event under each id and the cache the first of the newest of each pair,
whatever the batches were. -/
theorem batch_cuts_do_not_matter (batches : List (List Event)) :
    (∀ r, r ∈ (openInMemory.appendAll batches).events.rows ↔
      ∃ e, batches.flatten.find? (fun e => e.eventId = r.eventId) = some e ∧ e.toRow = r) ∧
    (∀ p, (openInMemory.appendAll batches).latest p =
      (firstNewest p batches.flatten).map Event.toStored) ∧
    ∀ batches' : List (List Event), batches'.flatten = batches.flatten →
      openInMemory.appendAll batches' = openInMemory.appendAll batches :=
  ⟨fun _ => mem_appendAll_openInMemory,latest_appendAll_openInMemory batches,
    fun _ => appendAll_openInMemory_congr⟩

namespace ColdStore

variable {s : ColdStore}

/-- No row of the log is newer than the cached row of its pair. -/
def CacheAhead (s : ColdStore) : Prop :=
  ∀ r ∈ s.events.rows, ∃ c, s.latest r.pair = some c ∧ r.tsMsUtc ≤ c.tsMsUtc

theorem le_upsert (old : Option StoredRow) (e : Event) : e.tsMsUtc ≤ (upsert old e).tsMsUtc := by
  cases old with
  | none => exact le_rfl
  | some old =>
    simp only [upsert]
    split_ifs with h
    · exact le_rfl
    · exact not_lt.mp h

theorem upsert_grows (old : StoredRow) (e : Event) : old.tsMsUtc ≤ (upsert (some old) e).tsMsUtc := by
  simp only [upsert]
  split_ifs with h
  · exact h.le
  · exact le_rfl

namespace CacheAhead

theorem openInMemory : CacheAhead .openInMemory := fun _ h => nomatch h

theorem append (h : s.CacheAhead) (batch : List Event) : (s.append batch).CacheAhead := by
  intro r hr
  rw [latest_append]
  rcases mem_append.mp hr with hr | ⟨_,e,he,rfl⟩
  · obtain ⟨c,hc,hle⟩ := h r hr
    cases firstNewest r.pair batch with
    | none => exact ⟨c,hc,hle⟩
    | some w =>
      rw [hc]
      exact ⟨_,rfl,hle.trans (upsert_grows c w)⟩
  · have hmem := (mem_of_find_id he).1
    cases hw : firstNewest e.pair batch with
    | none => exact absurd rfl (firstNewest_eq_none hw e hmem)
    | some w =>
      refine ⟨upsert (s.latest e.pair) w,by rw [Event.toRow_toStoredRow,Event.toStored_pair,hw],?_⟩
      exact ((firstNewest_spec hw).2 e hmem rfl).trans (le_upsert _ w)

/-- A sweep takes rows and leaves the cache. -/
theorem sweep {st : Stores} (h : st.cold.CacheAhead) (policies : List RetentionPolicy) (nowMs : Int64)
    (dryRun : Bool) : (Percept.sweep policies nowMs dryRun st).2.cold.CacheAhead := by
  intro r hr
  rw [sweep_latest]
  refine h r ?_
  cases dryRun with
  | true =>
    rw [Percept.sweep,sweepPairs_dry_snd] at hr
    exact hr
  | false =>
    exact (sweepPairs_cut policies nowMs (nodup_distinctSourceKindPairs st.cold) _ st).sublist.subset hr

theorem apply {st : Stores} (h : st.cold.CacheAhead) (op : StoreOp) : (st.apply op).cold.CacheAhead := by
  cases op with
  | append events => exact h.append events
  | appendVectors records => exact h
  | sweep policies nowMs dryRun => exact h.sweep policies nowMs dryRun

theorem run {st : Stores} (h : st.cold.CacheAhead) (ops : List StoreOp) :
    (st.run ops).cold.CacheAhead := by
  induction ops generalizing st with
  | nil => exact h
  | cons op ops ih => exact ih (h.apply op)

end CacheAhead

/-- An event that agrees with a row of the log in its id, its pair and its time. -/
def Stored (s : ColdStore) (e : Event) : Prop := ∃ r ∈ s.events.rows, r.eventId = e.eventId ∧
  r.sourceId = e.sourceId ∧ r.kind = e.kind ∧ r.tsMsUtc = e.tsMsUtc

theorem append_stored (hahead : s.CacheAhead) {batch : List Event} (h : ∀ e ∈ batch, s.Stored e) :
    s.append batch = s := by
  have hevents : (s.append batch).events = s.events := by
    refine KeyTable.insertAll_of_mem fun r hr => ?_
    obtain ⟨e,he,rfl⟩ := List.mem_map.mp hr
    obtain ⟨r,hr,hid,_⟩ := h e he
    exact List.mem_map.mpr ⟨r,hr,hid⟩
  have hlatest : (s.append batch).latest = s.latest := by
    funext p
    rw [latest_append]
    cases hw : firstNewest p batch with
    | none => rfl
    | some w =>
      obtain ⟨r,hr,_,hsource,hkind,hts⟩ := h w (List.mem_of_find?_eq_some hw)
      obtain ⟨c,hc,hle⟩ := hahead r hr
      have hpair : r.pair = p := (Prod.ext hsource hkind).trans (firstNewest_spec hw).1
      have hnot : ¬c.tsMsUtc < w.tsMsUtc := not_lt.mpr (hts ▸ hle)
      rw [← hpair,hc]
      exact congrArg some (if_neg hnot)
  exact congrArg₂ ColdStore.mk hevents hlatest

end ColdStore

/-- Whatever was appended and swept before, events that are still in the log change neither table
when they are appended again. -/
theorem redelivery_changes_nothing (ops : List StoreOp) (batch : List Event)
    (h : ∀ e ∈ batch, (Stores.openInMemory.run ops).cold.Stored e) :
    (Stores.openInMemory.run ops).cold.append batch = (Stores.openInMemory.run ops).cold :=
  append_stored (CacheAhead.openInMemory.run ops) h

/-- A reading that is sent again after its older neighbour was swept. -/
theorem redelivery_changes_nothing_retry :
    (Stores.openInMemory.run [.append [.required 1 "s" "k" 5 .null,.required 2 "s" "k" 4 .null],
        .sweep [{ maxCount := some 1 }] 9 false]).cold.append
      [{ Event.required 1 "s" "k" 5 .null with seq := some 7,traceId := some "retry" }] =
    (Stores.openInMemory.run [.append [.required 1 "s" "k" 5 .null,.required 2 "s" "k" 4 .null],
        .sweep [{ maxCount := some 1 }] 9 false]).cold := by
  refine redelivery_changes_nothing _ _ fun e he => ?_
  obtain rfl := List.mem_singleton.mp he
  exact ⟨(Event.required 1 "s" "k" 5 .null).toRow,List.Mem.head _,rfl,rfl,rfl,rfl⟩

end Percept
