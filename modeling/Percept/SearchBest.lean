import Percept.SearchEvents
import Percept.Sweeper

/-! Whether `search_events` returns the best of the live matches. The best vectors are chosen
before the store is asked for their events, so a vector whose event is gone can hold a place. -/
namespace Percept

variable {S : Type}

/-- The event of the hit is still in the store. -/
def ColdStore.live (store : ColdStore) (hit : SearchHit S) : Bool :=
  (store.getById hit.eventId).isSome

theorem ColdStore.eventId_of_getById {store : ColdStore} {id : Ulid} {e : Event}
    (h : store.getById id = some e) : e.eventId = id := by
  obtain ⟨r,hr,rfl⟩ := Option.map_eq_some_iff.mp h
  exact (KeyTable.lookup_eq_some_iff.mp hr).2

section Hydrate

variable {store : ColdStore} {hits : List (SearchHit S)}

theorem length_hydrate : (hydrate store hits).length = hits.countP store.live := by
  induction hits with
  | nil => rfl
  | cons hit hits ih =>
    cases hget : store.getById hit.eventId with
    | none => simpa [hydrate,ColdStore.live,hget] using ih
    | some e => simpa [hydrate,ColdStore.live,hget] using ih

theorem hydrate_sublist : ((hydrate store hits).map fun o => o.event.eventId).Sublist
    (hits.map SearchHit.eventId) := by
  induction hits with
  | nil => exact .slnil
  | cons hit hits ih =>
    cases hget : store.getById hit.eventId with
    | none => simpa [hydrate,hget] using ih.cons hit.eventId
    | some e =>
      simpa [hydrate,hget,ColdStore.eventId_of_getById hget] using ih.cons_cons hit.eventId

end Hydrate

section Candidates

variable {cosine : List UInt32 → List UInt32 → S} {index : VectorIndex} {embedder : Embedder}
  {args : SearchEventsArgs} {sourceGlobs kindGlobs : Option (String → Bool)}

theorem nodup_candidates : ((candidates cosine index embedder args sourceGlobs kindGlobs).map
    SearchHit.eventId).Nodup := by
  have hsub := (List.filter_sublist (l := index.rows)
    (p := VectorIndex.selects args.filter sourceGlobs kindGlobs)).map InMemoryRow.eventId
  simpa [candidates,Function.comp_def,VectorIndex.hit] using index.nodup_ids.sublist hsub

theorem candidates_perm {index' : VectorIndex} (hperm : index'.rows.Perm index.rows) :
    (candidates cosine index' embedder args sourceGlobs kindGlobs).Perm
      (candidates cosine index embedder args sourceGlobs kindGlobs) := (hperm.filter _).map _

end Candidates

variable [LinearOrder S]

/-- The answer to a search for `k` of the hits: as many live ones as there are, the best ones,
by descending score. -/
structure BestLive (store : ColdStore) (k : ℕ) (hits : List (SearchHit S))
    (out : List (SearchHitOut S)) : Prop where
  count : out.length = min k (hits.countP store.live)
  shown : ∀ o ∈ out, ∃ hit ∈ hits, store.getById hit.eventId = some o.event ∧
    o.score = hit.score ∧ o.truncated = hit.truncated
  distinct : (out.map fun o => o.event.eventId).Nodup
  descending : out.Pairwise fun a b => b.score ≤ a.score
  best : ∀ hit ∈ hits, store.live hit = true → (∀ o ∈ out, o.event.eventId ≠ hit.eventId) →
    ∀ o ∈ out, hit.score ≤ o.score

section Hydrate

variable {store : ColdStore} {hits : List (SearchHit S)}

theorem hydrate_descending (h : hits.Pairwise fun a b => b.score ≤ a.score) :
    (hydrate store hits).Pairwise fun a b => b.score ≤ a.score := by
  refine List.Pairwise.filterMap _ (fun a b hab o ho o' ho' => ?_) h
  obtain ⟨_,_,rfl⟩ := Option.map_eq_some_iff.mp ho
  obtain ⟨_,_,rfl⟩ := Option.map_eq_some_iff.mp ho'
  exact hab

/-- Apart from the count an answer is always as it should be. -/
theorem bestLive_iff {k : ℕ} (hk : 0 < k) (hnd : (hits.map SearchHit.eventId).Nodup) :
    BestLive store k hits (hydrate store (ranked k hits)) ↔
      (TopK.select SearchHit.score k hits).countP store.live = min k (hits.countP store.live) := by
  have hlength : (hydrate store (ranked k hits)).length =
      (TopK.select SearchHit.score k hits).countP store.live := by
    rw [length_hydrate,(ranked_perm hits).countP_eq]
  refine ⟨fun h => hlength ▸ h.count,fun hcount => ?_⟩
  obtain ⟨rest,hbest⟩ := TopK.select_best SearchHit.score hk hits
  refine ⟨hlength.trans hcount,fun o ho => mem_hydrate_ranked hk ho,?_,
    hydrate_descending (ranked_sorted hits),fun hit hhit hlive hleft o ho => ?_⟩
  · have hids := (hbest.perm.map SearchHit.eventId).nodup_iff.mpr hnd
    rw [List.map_append] at hids
    exact (((ranked_perm hits).map SearchHit.eventId).nodup_iff.mpr
      (List.nodup_append.mp hids).1).sublist hydrate_sublist
  · obtain ⟨chosen,hchosen,hmap⟩ := List.mem_filterMap.mp ho
    obtain ⟨event,_,rfl⟩ := Option.map_eq_some_iff.mp hmap
    refine hbest.le chosen ((ranked_perm hits).subset hchosen) hit ?_
    refine (List.mem_append.mp (hbest.perm.symm.subset hhit)).resolve_left fun hsel => ?_
    obtain ⟨e,he⟩ := Option.isSome_iff_exists.mp hlive
    exact hleft ⟨e,hit.score,hit.truncated⟩ (List.mem_filterMap.mpr
      ⟨hit,(ranked_perm hits).symm.subset hsel,by rw [he]; rfl⟩) (ColdStore.eventId_of_getById he)

end Hydrate

section Answers

variable (gs : Globset) (cosine : List UInt32 → List UInt32 → S) (embedder : Embedder)
  (store : ColdStore) (args : SearchEventsArgs) (sourceGlobs kindGlobs : Option (String → Bool))

/-- The request gets the best of the live matches. -/
def AnswersBest (index : VectorIndex) : Prop :=
  ∃ out, searchEvents gs cosine (some index) (some embedder) (some store) args = .ok out ∧
    BestLive store args.topK (candidates cosine index embedder args sourceGlobs kindGlobs) out

variable {gs cosine embedder store args sourceGlobs kindGlobs} {index : VectorIndex}

theorem answersBest_iff (h : Answered gs args sourceGlobs kindGlobs) :
    AnswersBest gs cosine embedder store args sourceGlobs kindGlobs index ↔
      (TopK.select SearchHit.score args.topK
          (candidates cosine index embedder args sourceGlobs kindGlobs)).countP store.live =
        min args.topK
          ((candidates cosine index embedder args sourceGlobs kindGlobs).countP store.live) := by
  rw [← bestLive_iff args.topK_pos nodup_candidates,AnswersBest,searchEvents_answered h]
  exact ⟨fun ⟨_,hok,hb⟩ => (Except.ok.inj hok) ▸ hb,fun hb => ⟨_,rfl,hb⟩⟩

/-- With the selected rows in a bad order a vector without an event takes the place of a live one. -/
theorem exists_order (h : Answered gs args sourceGlobs kindGlobs)
    (hu : ¬TopK.Undisturbed SearchHit.score store.live args.topK
      (candidates cosine index embedder args sourceGlobs kindGlobs)) :
    ∃ index' : VectorIndex, index'.rows.Perm index.rows ∧
      ¬AnswersBest gs cosine embedder store args sourceGlobs kindGlobs index' := by
  set sel := VectorIndex.selects args.filter sourceGlobs kindGlobs
  set hit := VectorIndex.hit cosine (embedder.embed args.query)
  have hcand : ∀ index', candidates cosine index' embedder args sourceGlobs kindGlobs =
    (index'.rows.filter sel).map hit := fun _ => rfl
  have hcount : ∀ p : SearchHit S → Bool, ((index.rows.filter sel).map hit).countP p =
    (index.rows.filter sel).countP fun r => p (hit r) := fun p => List.countP_map
  simp only [TopK.Undisturbed,hcand,hcount,List.forall_mem_map,not_forall,not_or,not_le] at hu
  obtain ⟨d,hd,x,hx,hdl,hxl,hbetter,hworse⟩ := hu
  have hne : d.eventId ≠ x.eventId := by
    intro heq
    have hlive : store.live (hit d) = store.live (hit x) := congrArg (Option.isSome ∘ store.getById) heq
    rw [hdl,hxl] at hlive
    cases hlive
  obtain ⟨l',hperm,hdesc,hdk,hxk⟩ := TopK.exists_arrangement (fun r => (hit r).score)
    InMemoryRow.eventId (index.nodup_ids.sublist (List.filter_sublist.map _)) hd hx hne hbetter hworse
  have hrows : (l' ++ index.rows.filter fun r => !sel r).Perm index.rows :=
    (hperm.append_right _).trans (List.filter_append_perm sel index.rows)
  refine ⟨⟨index.table,_,hrows.trans index.mirror⟩,hrows,?_⟩
  have hfilter : (l' ++ index.rows.filter fun r => !sel r).filter sel = l' := by
    have hall : ∀ r ∈ l', sel r = true := fun r hr => (List.mem_filter.mp (hperm.subset hr)).2
    rw [List.filter_append,List.filter_eq_self.mpr hall,List.filter_filter]
    simp
  rw [answersBest_iff h,hcand,hfilter]
  have hsel : TopK.select SearchHit.score args.topK (l'.map hit) = (l'.take args.topK).map hit := by
    rw [TopK.select_of_descending (List.pairwise_map.mpr hdesc),List.map_take]
  refine (TopK.countP_select_lt args.topK_pos (d := hit d) (x := hit x) ?_ hdl
    (List.mem_map_of_mem (hperm.symm.subset hx)) ?_ hxl).ne
  · rw [hsel]
    exact List.mem_map_of_mem hdk
  · rw [hsel,List.mem_map]
    rintro ⟨y,hy,hyx⟩
    have hyl := hperm.subset (List.mem_of_mem_take hy)
    have hid : y.eventId = x.eventId := congrArg SearchHit.eventId hyx
    have hyx' := List.inj_on_of_nodup_map index.nodup_ids (List.mem_of_mem_filter hyl)
      (List.mem_of_mem_filter hx) hid
    exact hxk (hyx' ▸ hy)

/-- The mirror holds its rows in an order of its own, which a restart changes and which decides
between equal scores. -/
theorem search_best_iff (h : Answered gs args sourceGlobs kindGlobs) :
    ((∀ index' : VectorIndex, index'.rows.Perm index.rows →
        AnswersBest gs cosine embedder store args sourceGlobs kindGlobs index') ↔
      TopK.Undisturbed SearchHit.score store.live args.topK
        (candidates cosine index embedder args sourceGlobs kindGlobs)) ∧
    (((candidates cosine index embedder args sourceGlobs kindGlobs).map SearchHit.score).Nodup →
      (AnswersBest gs cosine embedder store args sourceGlobs kindGlobs index ↔
        TopK.Undisturbed SearchHit.score store.live args.topK
          (candidates cosine index embedder args sourceGlobs kindGlobs))) := by
  refine ⟨⟨fun hall => ?_,fun hu index' hperm => ?_⟩,fun hnd => ?_⟩
  · by_contra hu
    obtain ⟨index',hperm,hbad⟩ := exists_order h hu
    exact hbad (hall index' hperm)
  · rw [answersBest_iff h]
    exact (hu.perm (candidates_perm hperm).symm).countP_select args.topK_pos
  · rw [answersBest_iff h]
    exact TopK.undisturbed_iff args.topK_pos hnd

end Answers

/-- Scores a payload by the length of its text. -/
def lengthEmbedder : Embedder := ⟨fun text => [UInt32.ofNat text.length],1,"length"⟩

def firstComponent (_ v : List UInt32) : ℕ := (v.headD 0).toNat

def twoEvents : List Event := [.required 1 "s" "k" 1 (.bool false),.required 2 "s" "k" 2 .null]

/-- The index that has both vectors. -/
def bothVectors : VectorIndex :=
  VectorIndex.openInMemory.append (twoEvents.map (buildRecord lengthEmbedder))

/-- With both events in the store a search finds the best one. -/
theorem search_best_of_two :
    AnswersBest literalGlobs firstComponent lengthEmbedder (ColdStore.openInMemory.append twoEvents)
      { query := "q", limit := some 1 } none none bothVectors := by
  refine (search_best_iff ⟨by decide,fun _ ht => (Option.some_ne_none _ ht.symm).elim,rfl,
    rfl⟩).1.mpr ?_ bothVectors (.refl _)
  unfold TopK.Undisturbed
  decide

/-- Two events in both stores; retention keeps the second one only. -/
def afterMaxCount : Stores := Stores.openInMemory.run
  [.append twoEvents,.appendVectors (twoEvents.map (buildRecord lengthEmbedder)),
    .sweep [{ maxCount := some 1 }] 5000 false]

/-- The search for one event returns none, though one is left. -/
theorem search_best_fails : ∃ index, afterMaxCount.vector = some index ∧
    Answered literalGlobs { query := "q", limit := some 1 } none none ∧
    ¬AnswersBest literalGlobs firstComponent lengthEmbedder afterMaxCount.cold
      { query := "q", limit := some 1 } none none index := by
  refine ⟨_,rfl,⟨by decide,fun _ ht => (Option.some_ne_none _ ht.symm).elim,rfl,rfl⟩,?_⟩
  rintro ⟨out,hok,hbest⟩
  have hnone : out = [] := (Except.ok.inj hok).symm
  have hcount := hbest.count
  rw [hnone] at hcount
  exact absurd hcount (by decide)

end Percept
