import Percept.Config
import Percept.LatestAgree

/-! `get_current_state` of one node: an entry for each declared source and kind that has an event
in its own ring or its own `latest` row. A pinned kind `n@v` has a ring and a row of its own. -/
namespace Percept

structure CurrentStateEntry where
  event : Event
  ageMs : Int64
  stale : Bool
  fromCold : Bool
  descriptor : ResolvedRow

/-- `DescriptorRegistry::filter` on whole rows. -/
def filterRows (gs : Globset) (rows : List ResolvedRow) (sourceFilter kindFilter : Option (List String)) :
    Except String (List ResolvedRow) := do
  let src ← gs.compile id sourceFilter
  let kind ← gs.compile id kindFilter
  return (rows.filter fun r => matchesOrEmpty src r.sourceId).filter fun r => matchesOrEmpty kind r.kind

section

variable {config : HotRingConfig}

def coldLatest (cold : Option ColdStore) (sourceId kind : String) : Option Event :=
  cold.bind fun store => store.latestEvent sourceId kind

/-- The hot ring before the cold store; the flag tells which. -/
def currentEvent (hot : HotRings config) (cold : Option ColdStore) (sourceId kind : String) :
    Option (Event × Bool) :=
  match hot.latest sourceId kind with
  | some e => some (e,false)
  | none => (coldLatest cold sourceId kind).map fun e => (e,true)

/-- The loop body; a pair without an event is left out. -/
def stateEntry (hot : HotRings config) (cold : Option ColdStore) (nowMs : Int64) (d : ResolvedRow) :
    Option CurrentStateEntry :=
  (currentEvent hot cold d.sourceId d.kind).map fun (event,fromCold) =>
    let ageMs := nowMs-event.tsMsUtc
    { event, ageMs
      stale := d.freshnessTtlMs.any fun ttl => ttl < ageMs
      fromCold
      descriptor := d }

def localStates (gs : Globset) (rows : List ResolvedRow) (hot : HotRings config)
    (cold : Option ColdStore) (nowMs : Int64) (sourceFilter kindFilter : Option (List String)) :
    Except String (List CurrentStateEntry) :=
  (filterRows gs rows sourceFilter kindFilter).map fun rows => rows.filterMap (stateEntry hot cold nowMs)

theorem filterRows_none (gs : Globset) (rows : List ResolvedRow) :
    filterRows gs rows none none = .ok rows := by
  have hall : ∀ l : List ResolvedRow, (l.filter fun _ => true) = l := fun l =>
    List.filter_eq_self.mpr fun _ _ => rfl
  change Except.ok ((rows.filter fun _ => true).filter fun _ => true) = _
  rw [hall,hall]

/-- The rows are filtered by the two columns that the registry has of them. -/
theorem filterRows_registry (gs : Globset) (rows : List ResolvedRow)
    (sourceFilter kindFilter : Option (List String)) :
    (filterRows gs rows sourceFilter kindFilter).map (List.map ResolvedRow.toResolvedDescriptor) =
      (DescriptorRegistry.mk (rows.map ResolvedRow.toResolvedDescriptor)).filter gs sourceFilter
        kindFilter := by
  unfold filterRows DescriptorRegistry.filter
  cases gs.compile id sourceFilter with
  | error e => rfl
  | ok src =>
    cases gs.compile id kindFilter with
    | error e => rfl
    | ok kind =>
      change Except.ok (List.map _ (List.filter _ (List.filter _ rows))) = Except.ok _
      rw [List.filter_map,List.filter_map]
      rfl

theorem stateEntry_some {hot : HotRings config} {cold : Option ColdStore} (nowMs : Int64)
    {d : ResolvedRow} {e : Event} {fromCold : Bool}
    (h : currentEvent hot cold d.sourceId d.kind = some (e,fromCold)) :
    ∃ x, stateEntry hot cold nowMs d = some x ∧ x.event = e ∧ x.descriptor = d :=
  ⟨_,congrArg (Option.map _) h,rfl,rfl⟩

/-- A declared pair has an entry exactly when it has an event. -/
theorem exists_entry_iff {hot : HotRings config} {cold : Option ColdStore} {nowMs : Int64} {cfg : Config}
    {s : SourceEntry} (hs : s ∈ cfg.sources) {n : String} (hn : n ∈ s.kinds) (p : Event → Prop) :
    (∃ x ∈ cfg.resolveDescriptors.filterMap (stateEntry hot cold nowMs),
        x.descriptor.sourceId = s.id ∧ x.descriptor.kind = n ∧ p x.event) ↔
      ∃ e, (currentEvent hot cold s.id n).map Prod.fst = some e ∧ p e := by
  constructor
  · rintro ⟨x,hx,hsource,hkind,hp⟩
    obtain ⟨d,_,hd⟩ := List.mem_filterMap.mp hx
    obtain ⟨⟨e,fromCold⟩,he,rfl⟩ := Option.map_eq_some_iff.mp hd
    simp only at hsource hkind
    rw [hsource,hkind] at he
    exact ⟨e,by rw [he]; rfl,hp⟩
  · rintro ⟨e,he,hp⟩
    obtain ⟨⟨e',fromCold⟩,hcurrent,rfl⟩ := Option.map_eq_some_iff.mp he
    have hd := Config.mem_resolveDescriptors.mpr ⟨s,hs,n,hn,rfl⟩
    have hkind : (resolve (sourceDescriptor s) (cfg.kindNamed n)).kind = n := cfg.kindNamed_kind n
    rw [← hkind] at hcurrent
    obtain ⟨x,hx,hevent,hrow⟩ := stateEntry_some nowMs
      (d := resolve (sourceDescriptor s) (cfg.kindNamed n)) hcurrent
    refine ⟨x,List.mem_filterMap.mpr ⟨_,hd,hx⟩,?_,?_,?_⟩
    · rw [hrow]
      rfl
    · rw [hrow]
      exact hkind
    · rwa [hevent]

end

end Percept
