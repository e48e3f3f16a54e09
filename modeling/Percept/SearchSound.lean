import Percept.ConsumerIsolation
import Percept.Lib.Runs
import Percept.SearchEvents
import Percept.SweepSpec

/-! Whether an answer of `search_events` is about the event it shows. The cold store keeps the
first event of an id and the vector index the last one; an answer joins the two by id. -/
namespace Percept

/-- What the tasks behind the normalizer and the sweeper do. -/
inductive FlowOp
  | append (events : List Event)
  | embed (events : List Event)
  | sweep (policies : List RetentionPolicy) (nowMs : Int64) (dryRun : Bool)

def FlowOp.toStoreOp (embedder : Embedder) : FlowOp → StoreOp
  | .append events => .append events
  | .embed events => .appendVectors (events.map (buildRecord embedder))
  | .sweep policies nowMs dryRun => .sweep policies nowMs dryRun

def Stores.flow (embedder : Embedder) (st : Stores) (op : FlowOp) : Stores :=
  st.apply (op.toStoreOp embedder)

/-- The rows that a search scans. -/
def Stores.vectorRows (st : Stores) : List InMemoryRow := (st.vector.map VectorIndex.rows).getD []

/-- The row of the mirror that belongs to an event. -/
def vectorOf (embedder : Embedder) (e : Event) : InMemoryRow := (buildRecord embedder e).toInMemoryRow

theorem VectorIndex.mem_append {index : VectorIndex} {records : List VectorRecord}
    {x : InMemoryRow} : x ∈ (index.append records).rows ↔
      (x ∈ index.rows ∧ ∀ r ∈ records, r.eventId ≠ x.eventId) ∨
        ∃ r, records.reverse.find? (fun r => r.eventId = x.eventId) = some r ∧
          r.toInMemoryRow = x := by
  induction records using List.reverseRecOn with
  | nil => simp [VectorIndex.append]
  | append_singleton records r ih =>
    have hstep : index.append (records ++ [r]) = (index.append records).insert r :=
      List.foldl_concat _ _ _ _
    rw [hstep,VectorIndex.mem_insert,ih,List.reverse_concat]
    by_cases hid : r.eventId = x.eventId
    · rw [List.find?_cons_of_pos (by simpa using hid)]
      constructor
      · rintro (⟨_,hne⟩ | rfl)
        · exact absurd hid.symm hne
        · exact Or.inr ⟨r,rfl,rfl⟩
      · rintro (⟨_,hnone⟩ | ⟨s,hs,rfl⟩)
        · exact absurd hid (hnone r (by simp))
        · exact Or.inr (by rw [Option.some.inj hs])
    · rw [List.find?_cons_of_neg (by simpa using hid)]
      have hx : x ≠ r.toInMemoryRow := fun h => hid (by rw [h])
      simp only [List.mem_append,List.mem_singleton,hx,or_false,Ne.symm hid,ne_eq,
        not_false_eq_true,and_true]
      refine or_congr_left (and_congr_right fun _ => ?_)
      exact ⟨fun h s hs => hs.elim (h s) fun hs => hs ▸ hid,fun h s hs => h s (Or.inl hs)⟩

section Linked

variable (embedder : Embedder)

/-- A vector and a row under one id come from the same event, as far as a search can see. -/
def Linked (st : Stores) : Prop := ∀ v ∈ st.vectorRows, ∀ r ∈ st.cold.events.rows,
  r.eventId = v.eventId → v = vectorOf embedder (rowToEvent r.toStoredRow)

/-- An event that the cold store keeps agrees with the vector that the index has under its id;
an event that the index keeps agrees with the row that the cold store has. -/
def Consistent (st : Stores) : FlowOp → Prop
  | .append events => ∀ e, events.find? (fun x => x.eventId = e.eventId) = some e →
      (∀ r ∈ st.cold.events.rows, r.eventId ≠ e.eventId) →
        ∀ v ∈ st.vectorRows, v.eventId = e.eventId → v = vectorOf embedder e
  | .embed events => ∀ e, events.reverse.find? (fun x => x.eventId = e.eventId) = some e →
      ∀ r ∈ st.cold.events.rows, r.eventId = e.eventId →
        vectorOf embedder e = vectorOf embedder (rowToEvent r.toStoredRow)
  | .sweep _ _ _ => True

variable {embedder} {st : Stores}

theorem linked_openInMemory : Linked embedder .openInMemory := fun _ h => by cases h

theorem linked_append_iff (h : Linked embedder st) (events : List Event) :
    Linked embedder (st.flow embedder (.append events)) ↔ Consistent embedder st (.append events) := by
  constructor
  · intro h' e he hnew v hv hid
    refine h' v hv e.toRow (KeyTable.mem_insertAll.mpr (Or.inr ⟨?_,?_⟩)) hid.symm
    · simpa using hnew
    · rw [List.find?_map,Option.map_eq_some_iff]
      exact ⟨e,he,rfl⟩
  · intro hc v hv r hr hid
    rcases KeyTable.mem_insertAll.mp hr with hr | ⟨hnew,hfind⟩
    · exact h v hv r hr hid
    · rw [List.find?_map,Option.map_eq_some_iff] at hfind
      obtain ⟨e,he,rfl⟩ := hfind
      exact hc e he (by simpa using hnew) v hv hid.symm

theorem linked_embed_iff (h : Linked embedder st) (hindex : st.vector.isSome) (events : List Event) :
    Linked embedder (st.flow embedder (.embed events)) ↔ Consistent embedder st (.embed events) := by
  obtain ⟨index,hsome⟩ := Option.isSome_iff_exists.mp hindex
  have hrows : (st.flow embedder (.embed events)).vectorRows =
      (index.append (events.map (buildRecord embedder))).rows := by
    simp [Stores.vectorRows,Stores.flow,FlowOp.toStoreOp,Stores.apply,hsome]
  have hold : st.vectorRows = index.rows := by simp [Stores.vectorRows,hsome]
  have hlast : ∀ i : Ulid, (events.map (buildRecord embedder)).reverse.find?
      (fun r => r.eventId = i) = (events.reverse.find? fun e => e.eventId = i).map
        (buildRecord embedder) := by
    intro i
    rw [← List.map_reverse,List.find?_map]
    rfl
  constructor
  · intro h' e he r hr hid
    refine h' (vectorOf embedder e) ?_ r hr hid
    rw [hrows,VectorIndex.mem_append,hlast]
    exact Or.inr ⟨buildRecord embedder e,by rw [show (vectorOf embedder e).eventId = e.eventId from rfl,
      he,Option.map_some],rfl⟩
  · intro hc v hv r hr hid
    rw [hrows,VectorIndex.mem_append,hlast] at hv
    rcases hv with ⟨hv,_⟩ | ⟨record,hfind,rfl⟩
    · exact h v (hold ▸ hv) r hr hid
    · obtain ⟨e,he,rfl⟩ := Option.map_eq_some_iff.mp hfind
      exact hc e he r hr hid

theorem sweepPair_vectorRows (p : Pair) (eff : EffectiveRetention) (nowMs : Int64) (dryRun : Bool)
    (st : Stores) : (sweepPair p eff nowMs dryRun st).2.vectorRows ⊆ st.vectorRows ∧
      (sweepPair p eff nowMs dryRun st).2.vector.isSome = st.vector.isSome := by
  have hstep : Stores.vectorRows ⟨st.cold,(vectorStep p eff nowMs dryRun st.vector).2⟩ ⊆
      st.vectorRows ∧ (vectorStep p eff nowMs dryRun st.vector).2.isSome = st.vector.isSome := by
    unfold vectorStep
    split
    next idx vmax hidx _ =>
      rw [hidx]
      refine ⟨?_,rfl⟩
      simp only [Stores.vectorRows,hidx,VectorIndex.sweepMaxAge]
      cases dryRun
      · exact fun v hv => (List.mem_filter.mp hv).1
      · exact List.Subset.refl _
    next => exact ⟨List.Subset.refl _,rfl⟩
  unfold sweepPair
  simp only
  split
  · exact ⟨List.Subset.refl _,rfl⟩
  · exact hstep

/-- A sweep takes vectors away and brings none. -/
theorem sweepPairs_vectorRows (policies : List RetentionPolicy) (nowMs : Int64) (dryRun : Bool)
    (pairs : List Pair) (report : SweepReport) (st : Stores) :
    (sweepPairs policies nowMs dryRun pairs report st).2.vectorRows ⊆ st.vectorRows ∧
      (sweepPairs policies nowMs dryRun pairs report st).2.vector.isSome = st.vector.isSome := by
  induction pairs generalizing report st with
  | nil => exact ⟨List.Subset.refl _,rfl⟩
  | cons p pairs ih =>
    have hpair := sweepPair_vectorRows p (resolveEffective policies p.1 p.2) nowMs dryRun st
    simp only [sweepPairs]
    split
    next => exact ih report st
    next =>
      split
      next e st' hst => rwa [hst] at hpair
      next row warnings st' hst =>
        rw [hst] at hpair
        obtain ⟨hsub,hsome⟩ := ih (report.add row warnings) st'
        exact ⟨fun v hv => hpair.1 (hsub hv),hsome.trans hpair.2⟩

theorem sweep_coldRows (policies : List RetentionPolicy) (nowMs : Int64) (dryRun : Bool)
    (st : Stores) : (sweep policies nowMs dryRun st).2.cold.events.rows ⊆ st.cold.events.rows := by
  cases dryRun with
  | true => rw [sweep,sweepPairs_dry_snd]; exact List.Subset.refl _
  | false =>
    exact (sweepPairs_cut policies nowMs (nodup_distinctSourceKindPairs st.cold)
      ⟨[],0,0,[],false⟩ st).sublist.subset

theorem linked_flow_iff (op : FlowOp) (hindex : st.vector.isSome) (h : Linked embedder st) :
    Linked embedder (st.flow embedder op) ↔ Consistent embedder st op := by
  cases op with
  | append events => exact linked_append_iff h events
  | embed events => exact linked_embed_iff h hindex events
  | sweep policies nowMs dryRun =>
    refine iff_of_true (fun v hv r hr hid => ?_) trivial
    exact h v ((sweepPairs_vectorRows policies nowMs dryRun _ _ st).1 hv) r
      (sweep_coldRows policies nowMs dryRun st hr) hid

theorem flow_isSome (op : FlowOp) : (st.flow embedder op).vector.isSome = st.vector.isSome := by
  cases op with
  | append events => rfl
  | embed events => exact Option.isSome_map
  | sweep policies nowMs dryRun => exact (sweepPairs_vectorRows policies nowMs dryRun _ _ st).2

/-- The two stores stay linked exactly in the runs whose steps are consistent. -/
theorem linked_iff_consistent (ops : List FlowOp) :
    Runs.Always (Stores.flow embedder) (Linked embedder) .openInMemory ops ↔
      Runs.EachStep (Stores.flow embedder) (Consistent embedder) .openInMemory ops :=
  Runs.always_iff_eachStep (I := fun st => st.vector.isSome)
    (fun _ op h => (flow_isSome op).trans h) (fun _ op hindex h => linked_flow_iff op hindex h) rfl
    linked_openInMemory ops

end Linked

section Sound

variable {S : Type} [LinearOrder S] (gs : Globset) (cosine : List UInt32 → List UInt32 → S)
  (embedder : Embedder)

/-- An event that a request asks for, by its own time, source and kind. -/
def Requested (args : SearchEventsArgs) (e : Event) : Prop :=
  ∃ sourceGlobs kindGlobs, Answered gs args sourceGlobs kindGlobs ∧
    (∀ t, args.timeRange = some t → t.startMs ≤ e.tsMsUtc ∧ e.tsMsUtc < t.endMs) ∧
    matchesOrEmpty sourceGlobs e.sourceId = true ∧ matchesOrEmpty kindGlobs e.kind = true

/-- Every hit of every answer is an event that was asked for, with the score and the flag of
its own payload. -/
def SearchSound (st : Stores) : Prop := ∀ args out,
  searchEvents gs cosine st.vector (some embedder) (some st.cold) args = .ok out →
    ∀ o ∈ out, Requested gs args o.event ∧
      o.score = cosine (embedder.embed args.query) (vectorOf embedder o.event).vector ∧
      o.truncated = (vectorOf embedder o.event).truncated

variable {gs cosine embedder} {st : Stores}

theorem requested_of_selects {args : SearchEventsArgs} {sourceGlobs kindGlobs : Option (String → Bool)}
    (h : Answered gs args sourceGlobs kindGlobs) {e : Event}
    (hsel : VectorIndex.selects args.filter sourceGlobs kindGlobs (vectorOf embedder e) = true) :
    Requested gs args e := by
  simp only [VectorIndex.selects,Bool.and_eq_true,SearchEventsArgs.filter] at hsel
  obtain ⟨⟨⟨hstart,hend⟩,hsource⟩,hkind⟩ := hsel
  refine ⟨sourceGlobs,kindGlobs,h,fun t ht => ?_,hsource,hkind⟩
  rw [ht] at hstart hend
  exact ⟨of_decide_eq_true hstart,of_decide_eq_true hend⟩

theorem Linked.searchSound (h : Linked embedder st) : SearchSound gs cosine embedder st := by
  intro args out hok o ho
  cases hindex : st.vector with
  | none =>
    rw [hindex] at hok
    cases hok
  | some index =>
    rw [hindex] at hok
    obtain ⟨sourceGlobs,kindGlobs,hans⟩ := answered_of_ok hok
    rw [searchEvents_answered hans] at hok
    obtain rfl := Except.ok.inj hok
    obtain ⟨hit,hhit,hget,hscore,htrunc⟩ := mem_hydrate_ranked args.topK_pos ho
    obtain ⟨v,hv,rfl⟩ := List.mem_map.mp hhit
    obtain ⟨hrow,hsel⟩ := List.mem_filter.mp hv
    obtain ⟨r,hlookup,hevent⟩ := Option.map_eq_some_iff.mp hget
    obtain ⟨hr,hid⟩ := KeyTable.lookup_eq_some_iff.mp hlookup
    have hlink : v = vectorOf embedder o.event := by
      rw [← hevent]
      exact h v (by simpa [Stores.vectorRows,hindex] using hrow) r hr hid
    rw [hlink] at hsel hscore htrunc
    exact ⟨requested_of_selects hans hsel,hscore,htrunc⟩

/-- Answers are sound in every state of a run whose steps are consistent. -/
theorem search_sound_of_consistent (ops : List FlowOp)
    (h : Runs.EachStep (Stores.flow embedder) (Consistent embedder) .openInMemory ops) :
    Runs.Always (Stores.flow embedder) (SearchSound gs cosine embedder) .openInMemory ops :=
  ((linked_iff_consistent ops).mpr h).mono fun _ hlinked => hlinked.searchSound

end Sound

def constantEmbedder : Embedder := ⟨fun _ => [0],1,"constant"⟩

theorem search_sound_of_one_event :
    Runs.Always (Stores.flow constantEmbedder)
      (SearchSound literalGlobs (fun _ _ => 0 : List UInt32 → List UInt32 → ℕ) constantEmbedder)
      .openInMemory
      [.append [.required 7 "a" "k" 1 .null],.embed [.required 7 "a" "k" 1 .null]] := by
  refine search_sound_of_consistent _
    ⟨fun _ _ _ v hv => absurd hv List.not_mem_nil,fun e he r hr _ => ?_,trivial⟩
  obtain rfl := List.mem_singleton.mp (List.mem_of_find?_eq_some he)
  obtain rfl : r = (Event.required 7 "a" "k" 1 .null).toRow := List.mem_singleton.mp hr
  rfl

/-- Two events under one id, from different sources. -/
def reusedId : List Arrival :=
  [⟨⟨⟨some 7,"a","k",1,.null,none,none,none⟩,none⟩,0,1,5,5⟩,
    ⟨⟨⟨some 7,"b","k",2,.null,none,none,none⟩,none⟩,0,2,6,6⟩]

/-- The normalizer that handled them, with a cold writer and an embedder. -/
def afterReusedId : Normalizer {} :=
  (normalizerRun ⟨fun _ => "",fun _ => none⟩ {} ⟨fun _ => none,fun _ => none,fun _ => none⟩
    ⟨true,fun _ => none,fun _ => none⟩ (fun _ => some ⟨4,fun _ => 0⟩) reusedId).2

/-- Asked for source `b`, the search shows the event of source `a`. -/
theorem search_sound_fails :
    ¬ Runs.Always (Stores.flow constantEmbedder)
      (SearchSound literalGlobs (fun _ _ => 0 : List UInt32 → List UInt32 → ℕ) constantEmbedder)
      .openInMemory
      [.append (afterReusedId.delivered .coldWriter),.embed (afterReusedId.delivered .embedder)] := by
  rintro ⟨_,_,h⟩
  have hall := h { query := "q", sourceFilter := some ["b"] } _ rfl
  obtain ⟨⟨sourceGlobs,kindGlobs,hans,_,hsource,_⟩,_⟩ := hall _ List.mem_cons_self
  obtain rfl : sourceGlobs = some fun s => ["b"].contains s := (Except.ok.inj hans.source).symm
  exact absurd hsource (by decide)

end Percept
