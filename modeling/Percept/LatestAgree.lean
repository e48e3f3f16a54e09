import Percept.LatestTable
import Percept.Sequence

/-! The two sources of `get_current_state` for one pair: the hot ring gives the event pushed last,
the `latest` table the first one among the newest. -/
namespace Percept

namespace HotRings

variable {config : HotRingConfig}

/-- Pushes in order, each with the clock at that moment. -/
def pushAll (h : HotRings config) (l : List (Event × Int64)) : HotRings config :=
  l.foldl (fun h x => (h.push x.1 x.2).2) h

end HotRings

namespace ColdStore

variable {s : ColdStore} {p : Pair}

def appendAll (s : ColdStore) (batches : List (List Event)) : ColdStore := batches.foldl append s

theorem newer_newer (cur : Option Event) (a b : Event) :
    newer (some (newer cur a)) b = newer cur (newer (some a) b) := by
  cases cur with
  | none => rfl
  | some c =>
    simp only [newer]
    by_cases hca : c.tsMsUtc < a.tsMsUtc
    · by_cases hab : a.tsMsUtc < b.tsMsUtc
      · simp [hca,hab,hca.trans hab]
      · simp [hca,hab]
    · by_cases hab : a.tsMsUtc < b.tsMsUtc
      · simp [hca,hab]
      · have hcb : ¬ c.tsMsUtc < b.tsMsUtc :=
          not_lt.mpr ((not_lt.mp hab).trans (not_lt.mp hca))
        simp [hca,hab,hcb]

/-- A batch collapses the same in one piece as in two. -/
theorem latestInBatch_append (l batch : List Event) (p : Pair) :
    latestInBatch (l ++ batch) p = match latestInBatch batch p with
      | none => latestInBatch l p
      | some w => some (newer (latestInBatch l p) w) := by
  induction batch using List.reverseRecOn with
  | nil => simp [latestInBatch]
  | append_singleton batch e ih =>
    rw [← List.append_assoc,latestInBatch_concat,latestInBatch_concat,ih]
    by_cases hp : e.pair = p
    · rw [if_pos hp,if_pos hp]
      cases latestInBatch batch p with
      | none => rfl
      | some w => exact congrArg some (newer_newer _ w e)
    · rw [if_neg hp,if_neg hp]

theorem upsert_eq (cur : Option Event) (e : Event) :
    upsert (cur.map Event.toStored) e = (newer cur e).toStored := by
  cases cur with
  | none => rfl
  | some c =>
    by_cases h : c.tsMsUtc < e.tsMsUtc <;> simp [upsert,newer,h]

/-- However a sequence is cut into batches, the cached row is that of the whole sequence. -/
theorem latest_appendAll {l : List Event} (h : s.latest p = (latestInBatch l p).map Event.toStored)
    (batches : List (List Event)) :
    (s.appendAll batches).latest p =
      (latestInBatch (l ++ batches.flatten) p).map Event.toStored := by
  induction batches generalizing s l with
  | nil => simpa [appendAll] using h
  | cons batch batches ih =>
    have hnext : (s.append batch).latest p =
        (latestInBatch (l ++ batch) p).map Event.toStored := by
      change upsertLatest s.latest batch p = _
      rw [latestInBatch_append,upsertLatest]
      cases latestInBatch batch p with
      | none => exact h
      | some w =>
        refine congrArg some ?_
        rw [h]
        exact upsert_eq _ w
    have hrest := ih hnext
    rwa [List.append_assoc] at hrest

theorem OwnRows.appendAll (h : s.OwnRows) (batches : List (List Event)) : (s.appendAll batches).OwnRows := by
  induction batches generalizing s with
  | nil => exact h
  | cons batch batches ih => exact ih (h.append batch)

/-- Events of other pairs do not matter. -/
theorem latestInBatch_ofKind (l : List Event) (p : Pair) :
    latestInBatch (ofKind p l) p = latestInBatch l p := by
  induction l using List.reverseRecOn with
  | nil => rfl
  | append_singleton l e ih =>
    rw [latestInBatch_concat]
    by_cases hp : e.pair = p
    · have hkeep : ofKind p (l ++ [e]) = ofKind p l ++ [e] := by simp [ofKind,hp]
      rw [hkeep,latestInBatch_concat,ih]
    · have hdrop : ofKind p (l ++ [e]) = ofKind p l := by simp [ofKind,hp]
      rw [hdrop,ih,if_neg hp]

/-- A stored event with its ingest time is read back as it was. -/
theorem rowToEvent_toStored {e : Event} (h : e.ingestTsMsUtc.isSome) : rowToEvent e.toStored = e := by
  obtain ⟨t,ht⟩ := Option.isSome_iff_exists.mp h
  cases e
  simp only at ht
  subst ht
  simp [rowToEvent,Event.toStored,Option.map_map,Function.comp_def]

end ColdStore

/-- An event that is newer than all before it and not older than any behind it. -/
def IsNewest (es : List Event) (e : Event) : Prop :=
  ∃ pre post, es = pre ++ e::post ∧ (∀ x ∈ pre, x.tsMsUtc < e.tsMsUtc) ∧
    ∀ x ∈ post, x.tsMsUtc ≤ e.tsMsUtc

theorem latestInBatch_eq_some_iff {es : List Event} {p : Pair} (hes : ∀ e ∈ es, e.pair = p) {w : Event} :
    ColdStore.latestInBatch es p = some w ↔ IsNewest es w := by
  constructor
  · intro h
    have hspec := ColdStore.latestInBatch_spec es p
    rw [h] at hspec
    obtain ⟨-,pre,post,rfl,hpre,hpost⟩ := hspec
    exact ⟨pre,post,rfl,fun x hx => hpre x hx (hes x (List.mem_append_left _ hx)),fun x hx =>
      hpost x hx (hes x (List.mem_append_right _ (List.mem_cons_of_mem _ hx)))⟩
  · rintro ⟨pre,post,rfl,hpre,hpost⟩
    have hw : w.pair = p := hes w (by simp)
    have hmax : ∀ x ∈ pre ++ w::post, x.pair = p → x.tsMsUtc ≤ w.tsMsUtc := by
      intro x hx _
      rcases List.mem_append.mp hx with hx | hx
      · exact (hpre x hx).le
      · rcases List.mem_cons.mp hx with rfl | hx
        · exact le_rfl
        · exact hpost x hx
    rw [ColdStore.latestInBatch_eq]
    refine List.find?_eq_some_iff_append.mpr ⟨decide_eq_true ⟨hw,hmax⟩,pre,post,rfl,fun x hx => ?_⟩
    rw [decide_eq_false fun h => not_le.mpr (hpre x hx) (h.2 w (by simp) hw),Bool.not_false]

/-- When nothing was evicted, the ring gives the event accepted last and the table the first of
the newest ones, however the sequence was cut into batches. -/
theorem hot_cold_latest {config : HotRingConfig} {p : Pair} {l : List (Event × Int64)}
    {batches : List (List Event)} {last : Event}
    (hkept : ((HotRings.new : HotRings config).pushAll l).snapshot p.1 p.2 = ofKind p (l.map Prod.fst))
    (hbatches : ofKind p batches.flatten = ofKind p (l.map Prod.fst))
    (haccepted : ∀ e ∈ ofKind p (l.map Prod.fst), e.ingestTsMsUtc.isSome)
    (hlast : (ofKind p (l.map Prod.fst)).getLast? = some last) :
    let hot := ((HotRings.new : HotRings config).pushAll l).latest p.1 p.2
    let cold := (ColdStore.openInMemory.appendAll batches).latestEvent p.1 p.2
    hot = some last ∧ (∃ w, cold = some w ∧ IsNewest (ofKind p (l.map Prod.fst)) w) ∧
      (hot = cold ↔ IsNewest (ofKind p (l.map Prod.fst)) last) := by
  intro hot cold
  generalize hes : ofKind p (l.map Prod.fst) = es at hkept hbatches haccepted hlast ⊢
  have hpair : ∀ e ∈ es, e.pair = p := by
    intro e he
    rw [← hes] at he
    simpa using (List.mem_filter.mp he).2
  have hhot : hot = some last := by
    change (((HotRings.new : HotRings config).pushAll l).snapshot p.1 p.2).getLast? = _
    rw [hkept,hlast]
  have hrow : (ColdStore.openInMemory.appendAll batches).latest p =
      (ColdStore.latestInBatch es p).map Event.toStored := by
    rw [ColdStore.latest_appendAll (l := []) rfl,List.nil_append,← ColdStore.latestInBatch_ofKind,hbatches]
  obtain ⟨w,hw⟩ : ∃ w, ColdStore.latestInBatch es p = some w := by
    cases hnone : ColdStore.latestInBatch es p with
    | some w => exact ⟨w,rfl⟩
    | none =>
      have hspec := ColdStore.latestInBatch_spec es p
      rw [hnone] at hspec
      have hmem := List.mem_of_getLast? hlast
      exact absurd (hpair last hmem) (hspec last hmem)
  have hnewest := (latestInBatch_eq_some_iff hpair).mp hw
  have hcold : cold = some w := by
    obtain ⟨pre,post,hsplit,-⟩ := hnewest
    have hmem : w ∈ es := by simp [hsplit]
    change ((ColdStore.openInMemory.appendAll batches).latest p).map rowToEvent = _
    rw [hrow,hw,Option.map_some,Option.map_some,ColdStore.rowToEvent_toStored (haccepted w hmem)]
  refine ⟨hhot,⟨w,hcold,hnewest⟩,?_⟩
  rw [hhot,hcold,← latestInBatch_eq_some_iff hpair,hw]
  exact eq_comm

/-- An accepted event. -/
def frameAt (eventId : Ulid) (tsMsUtc : Int64) : Event :=
  { Event.required eventId "cam" "frame" tsMsUtc .null with ingestTsMsUtc := some 9 }

/-- Two events in order of time, in batches of one. -/
theorem hot_cold_latest_in_order :
    let hot := ((HotRings.new : HotRings {}).pushAll [(frameAt 1 1,9),(frameAt 2 2,9)]).latest "cam" "frame"
    let cold := (ColdStore.openInMemory.appendAll [[frameAt 1 1],[frameAt 2 2]]).latestEvent "cam" "frame"
    hot = some (frameAt 2 2) ∧ (∃ w, cold = some w ∧ IsNewest [frameAt 1 1,frameAt 2 2] w) ∧
      (hot = cold ↔ IsNewest [frameAt 1 1,frameAt 2 2] (frameAt 2 2)) :=
  hot_cold_latest (p := ("cam","frame")) (l := [(frameAt 1 1,9),(frameAt 2 2,9)]) rfl rfl
    (fun e he => by rcases List.mem_pair.mp he with rfl | rfl <;> rfl) rfl

/-- Two events against the order of time: the ring gives the older one, the table the newer. -/
theorem hot_cold_latest_fails :
    ((HotRings.new : HotRings {}).pushAll [(frameAt 1 2,9),(frameAt 2 1,9)]).snapshot "cam" "frame" =
      [frameAt 1 2,frameAt 2 1] ∧
    ((HotRings.new : HotRings {}).pushAll [(frameAt 1 2,9),(frameAt 2 1,9)]).latest "cam" "frame" ≠
      (ColdStore.openInMemory.appendAll [[frameAt 1 2,frameAt 2 1]]).latestEvent "cam" "frame" := by
  refine ⟨rfl,fun h => ?_⟩
  have hts := congrArg (Option.map Event.tsMsUtc) h
  revert hts
  decide

end Percept
