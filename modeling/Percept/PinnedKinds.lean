import Percept.CurrentState
import Percept.Forwarder

/-! Whether pinning a version on the wire hides an event from `get_current_state`. -/
namespace Percept

/-- The name itself, or the name with a version that `KindRef` accepts. -/
def InFamily (n kind : String) : Prop :=
  kind = n ∨ ∃ version, kind = n ++ "@" ++ version ∧ ∃ r, KindRef.fromStr kind = .ok r

section

variable {config : HotRingConfig} {hot : HotRings config} {cold : Option ColdStore}
  {events : List Event} {s n : String}

/-- An event of the family that is still in its ring. -/
def Live (hot : HotRings config) (s n : String) (e : Event) : Prop :=
  e.sourceId = s ∧ InFamily n e.kind ∧ e ∈ hot.snapshot s e.kind

/-- The most recently normalized event of the family that is still in a ring. -/
def LastLive (hot : HotRings config) (events : List Event) (s n : String) (e : Event) : Prop :=
  ∃ pre post, events = pre ++ e::post ∧ Live hot s n e ∧ ∀ x ∈ post, ¬Live hot s n x

/-- The entry of the family's pair carries the most recent event that is still in a ring, or one
of the `latest` table when none is. -/
structure PinnedVisible (hot : HotRings config) (cold : Option ColdStore) (events : List Event)
    (states : List CurrentStateEntry) (s n : String) : Prop where
  ring : ∀ e, LastLive hot events s n e →
    ∃ x ∈ states, x.descriptor.sourceId = s ∧ x.descriptor.kind = n ∧ x.event = e
  latest : (∀ e, ¬LastLive hot events s n e) → (∃ k e, InFamily n k ∧ coldLatest cold s k = some e) →
    ∃ x ∈ states, x.descriptor.sourceId = s ∧ x.descriptor.kind = n ∧
      ∃ k, InFamily n k ∧ coldLatest cold s k = some x.event

theorem exists_lastLive (h : ∃ x ∈ events, Live hot s n x) : ∃ e, LastLive hot events s n e := by
  induction events using List.reverseRecOn with
  | nil =>
    obtain ⟨x,hx,_⟩ := h
    cases hx
  | append_singleton events e ih =>
    by_cases he : Live hot s n e
    · exact ⟨e,events,[],rfl,he,by simp⟩
    · obtain ⟨x,hx,hlive⟩ := h
      rcases List.mem_append.mp hx with hx | hx
      · obtain ⟨y,pre,post,rfl,hy,hpost⟩ := ih ⟨x,hx,hlive⟩
        refine ⟨y,pre,post ++ [e],by simp,hy,fun z hz => ?_⟩
        rcases List.mem_append.mp hz with hz | hz
        · exact hpost z hz
        · rw [List.mem_singleton.mp hz]
          exact he
      · exact absurd (List.mem_singleton.mp hx ▸ hlive) he

theorem currentEvent_of_latest {e : Event} (h : hot.latest s n = some e) :
    (currentEvent hot cold s n).map Prod.fst = some e := by
  unfold currentEvent
  rw [h]
  rfl

variable (hring : ∀ p : Pair, hot.snapshot p.1 p.2 <:+ ofKind p events)
include hring

/-- What a ring holds was pushed for its pair. -/
theorem mem_of_snapshot {k : String} {e : Event} (he : e ∈ hot.snapshot s k) :
    e ∈ events ∧ e.sourceId = s ∧ e.kind = k := by
  obtain ⟨hmem,hpair⟩ := List.mem_filter.mp ((hring (s,k)).subset he)
  obtain ⟨hsource,hkind⟩ := Prod.mk.inj (of_decide_eq_true hpair)
  exact ⟨hmem,hsource,hkind⟩

/-- A bare event that is the most recent one in a ring is the latest of its ring. -/
theorem latest_of_lastLive {e : Event} (he : LastLive hot events s n e) (hkind : e.kind = n) :
    hot.latest s n = some e := by
  obtain ⟨pre,post,rfl,⟨hsource,hfamily,hmem⟩,hpost⟩ := he
  rw [hkind] at hmem
  have hne : hot.snapshot s n ≠ [] := List.ne_nil_of_mem hmem
  obtain ⟨old,hold⟩ := hring (s,n)
  -- no event behind it is in the ring, so none of the pair is behind it at all
  have hnone : ofKind (s,n) post = [] := by
    by_contra hsome
    have hsplit : ofKind (s,n) (pre ++ e::post) = ofKind (s,n) (pre ++ [e]) ++ ofKind (s,n) post := by
      rw [List.append_cons,ofKind,List.filter_append]
      rfl
    rw [hsplit] at hold
    have hlast : (hot.snapshot s n).getLast? = (ofKind (s,n) post).getLast? := by
      rw [← List.getLast?_append_of_ne_nil old hne,hold,List.getLast?_append_of_ne_nil _ hsome]
    obtain ⟨x,hx⟩ : ∃ x, (hot.snapshot s n).getLast? = some x :=
      ⟨_,List.getLast?_eq_some_getLast hne⟩
    have hxpost : x ∈ post :=
      (List.mem_filter.mp (List.mem_of_getLast? (hlast.symm.trans hx))).1
    have hxring := List.mem_of_getLast? hx
    obtain ⟨_,hxs,hxn⟩ := mem_of_snapshot hring hxring
    exact hpost x hxpost ⟨hxs,Or.inl hxn,by rwa [hxn]⟩
  have hpair : e.pair = (s,n) := by rw [Event.pair,hsource,hkind]
  have hsplit : ofKind (s,n) (pre ++ e::post) = ofKind (s,n) pre ++ [e] := by
    rw [ofKind,List.filter_append,List.filter_cons_of_pos (by simpa using hpair)]
    change _ ++ e::ofKind (s,n) post = _
    rw [hnone]
    rfl
  rw [HotRings.latest,← List.getLast?_append_of_ne_nil old hne,hold,hsplit,List.getLast?_concat]

/-- What the tool has for the pair is an event of the pair. -/
theorem kind_of_currentEvent (hcold : ∀ k e, coldLatest cold s k = some e → e.kind = k) {e : Event}
    (he : (currentEvent hot cold s n).map Prod.fst = some e) : e.kind = n := by
  unfold currentEvent at he
  split at he
  next x hx =>
    obtain rfl := Option.some.inj he
    exact (mem_of_snapshot hring (List.mem_of_getLast? hx)).2.2
  next =>
    rw [Option.map_map] at he
    obtain ⟨x,hx,rfl⟩ := Option.map_eq_some_iff.mp he
    exact hcold n x hx

/-- With nothing of the family in a ring the tool reads the table. -/
theorem currentEvent_of_none (h : ∀ e, ¬LastLive hot events s n e) :
    (currentEvent hot cold s n).map Prod.fst = coldLatest cold s n := by
  have hnone : hot.latest s n = none := by
    by_contra hsome
    obtain ⟨x,hx⟩ := Option.ne_none_iff_exists'.mp hsome
    have hmem : x ∈ hot.snapshot s n := List.mem_of_getLast? hx
    obtain ⟨hevents,hxs,hxn⟩ := mem_of_snapshot hring hmem
    obtain ⟨e,he⟩ := exists_lastLive ⟨x,hevents,hxs,Or.inl hxn,by rwa [hxn]⟩
    exact h e he
  unfold currentEvent
  rw [hnone]
  cases coldLatest cold s n <;> rfl

end

/-- A row of the table belongs to its pair. -/
theorem kind_of_coldLatest (batches : Option (List (List Event))) {s k : String} {e : Event}
    (h : coldLatest (batches.map ColdStore.openInMemory.appendAll) s k = some e) : e.kind = k := by
  obtain ⟨store,hstore,h⟩ := Option.bind_eq_some_iff.mp h
  obtain ⟨batches,_,rfl⟩ := Option.map_eq_some_iff.mp hstore
  obtain ⟨row,hrow,rfl⟩ := Option.map_eq_some_iff.mp h
  exact congrArg Prod.snd (ColdStore.OwnRows.openInMemory.appendAll batches _ row hrow)

/-- Pinned events of a declared kind stay visible exactly when the family's most recent event in a
ring is a bare one and, with none in a ring, the table has a bare row if it has any. -/
theorem pinned_visible_iff (ulid : UlidText) (ring : HotRingConfig) (schemas : SchemaIndex)
    (selector : EmbedSelector) (fills : Consumer → Option FillHistory) (l : List Arrival)
    (batches : Option (List (List Event))) (gs : Globset) (nowMs : Int64) {cfg : Config}
    {s : SourceEntry} (hs : s ∈ cfg.sources) {n : String} (hn : n ∈ s.kinds) :
    let r := normalizerRun ulid ring schemas selector fills l
    let cold := batches.map ColdStore.openInMemory.appendAll
    (∃ states, localStates gs cfg.resolveDescriptors r.2.hotRings cold nowMs none none = .ok states ∧
      PinnedVisible r.2.hotRings cold r.1 states s.id n) ↔
    (∀ e, LastLive r.2.hotRings r.1 s.id n e → e.kind = n) ∧
      ((∀ e, ¬LastLive r.2.hotRings r.1 s.id n e) →
        (∃ k e, InFamily n k ∧ coldLatest cold s.id k = some e) → ∃ e, coldLatest cold s.id n = some e) := by
  intro r cold
  have hhistory : r.2.History r.1 :=
    (Normalizer.History.new (n := spawnNormalizer ring schemas selector fills) rfl rfl).run ulid _ 0 l
  have hring := hhistory.ring
  have hcold : ∀ k e, coldLatest cold s.id k = some e → e.kind = k := fun k e =>
    kind_of_coldLatest batches
  rw [localStates,filterRows_none]
  simp only [Except.map,Except.ok.injEq,exists_eq_left']
  constructor
  · intro h
    refine ⟨fun e he => ?_,fun hnone hrow => ?_⟩
    · obtain ⟨e',he',rfl⟩ := (exists_entry_iff hs hn (· = e)).mp (h.ring e he)
      exact kind_of_currentEvent hring hcold he'
    · obtain ⟨e,he,_⟩ := (exists_entry_iff hs hn fun e =>
        ∃ k, InFamily n k ∧ coldLatest cold s.id k = some e).mp (h.latest hnone hrow)
      rw [currentEvent_of_none hring hnone] at he
      exact ⟨e,he⟩
  · rintro ⟨hbare,hrow⟩
    refine ⟨fun e he => ?_,fun hnone hany => ?_⟩
    · have hlatest := latest_of_lastLive hring he (hbare e he)
      exact (exists_entry_iff hs hn (· = e)).mpr ⟨e,currentEvent_of_latest hlatest,rfl⟩
    · obtain ⟨e,he⟩ := hrow hnone hany
      refine (exists_entry_iff hs hn fun e => ∃ k, InFamily n k ∧ coldLatest cold s.id k = some e).mpr
        ⟨e,?_,n,Or.inl rfl,he⟩
      rw [currentEvent_of_none hring hnone]
      exact he

/-- One camera that declares one kind. -/
def cameraConfig : Config := { sources := [{ id := "cam", kinds := ["frame"] }] }

def cameraArrival (kind : String) (eventId : Ulid) : Arrival :=
  ⟨⟨⟨some eventId,"cam",kind,5,.null,none,none,none⟩,none⟩,eventId,0,9,9⟩

/-- The run of a normalizer without schemas or consumers. -/
def cameraRun (l : List Arrival) : List Event × Normalizer {} :=
  normalizerRun crockfordText {} .empty ⟨false,fun _ => none,fun _ => none⟩ (fun _ => none) l

def cameraEvent (kind : String) (eventId : Ulid) (seq : UInt64) : Event :=
  ⟨eventId,"cam",kind,5,.null,none,some (crockfordText.toText 0),some 9,some seq,none,none⟩

/-- A bare event after a pinned one. -/
theorem pinned_visible_bare_last :
    let r := cameraRun [cameraArrival "frame@v2" 1,cameraArrival "frame" 2]
    ∃ states, localStates literalGlobs cameraConfig.resolveDescriptors r.2.hotRings none 9 none none =
        .ok states ∧ PinnedVisible r.2.hotRings none r.1 states "cam" "frame" := by
  have hs : ({ id := "cam", kinds := ["frame"] } : SourceEntry) ∈ cameraConfig.sources :=
    List.mem_singleton_self _
  refine (pinned_visible_iff crockfordText {} .empty ⟨false,fun _ => none,fun _ => none⟩ (fun _ => none)
    [cameraArrival "frame@v2" 1,cameraArrival "frame" 2] none literalGlobs 9 hs
    (List.mem_singleton_self "frame")).mpr ⟨?_,?_⟩
  · rintro e ⟨pre,post,hsplit,_,hpost⟩
    change [cameraEvent "frame@v2" 1 1,cameraEvent "frame" 2 2] = pre ++ e::post at hsplit
    match pre with
    | [] =>
      obtain ⟨rfl,rfl⟩ := List.cons.inj hsplit
      exact absurd ⟨rfl,Or.inl rfl,List.mem_singleton_self _⟩ (hpost _ (List.mem_singleton_self _))
    | [a] =>
      obtain ⟨rfl,rfl⟩ := List.cons.inj (List.cons.inj hsplit).2
      rfl
    | a::b::pre => simp at hsplit
  · rintro - ⟨k,e,-,he⟩
    cases he

/-- A pinned event after a bare one: the tool still shows the bare one. -/
theorem pinned_visible_fails :
    let r := cameraRun [cameraArrival "frame" 1,cameraArrival "frame@v2" 2]
    ¬∃ states, localStates literalGlobs cameraConfig.resolveDescriptors r.2.hotRings none 9 none none =
        .ok states ∧ PinnedVisible r.2.hotRings none r.1 states "cam" "frame" := by
  rintro r ⟨states,hstates,hvisible⟩
  rw [localStates,filterRows_none] at hstates
  obtain rfl := Except.ok.inj hstates
  have hfamily : InFamily "frame" "frame@v2" := Or.inr ⟨"v2",rfl,⟨"frame",some "v2"⟩,by decide⟩
  obtain ⟨x,hx,-,-,hevent⟩ := hvisible.ring (cameraEvent "frame@v2" 2 2)
    ⟨[cameraEvent "frame" 1 1],[],rfl,⟨rfl,hfamily,List.mem_singleton_self _⟩,by simp⟩
  have hshown : x.event.kind = "frame" := by
    rw [List.mem_singleton.mp hx]
    rfl
  rw [hevent] at hshown
  exact absurd hshown (by decide)

end Percept
