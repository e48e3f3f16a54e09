import Percept.Forwarder
import Percept.Config
import Percept.LatestAgree

/-! A hub that edges forward to. All that it keeps for a source it keeps under the rewritten
`source_id`, the `peer_id`, a dot and the local `source_id`, each of which may have dots in it. -/
namespace Percept

/-- The arrival is one of the events that the hub reads from a batch of the edge. -/
def ForwardedBy (ulid : UlidText) (peerId : String) (a : Arrival) : Prop :=
  ∃ batch hub, hubEvents ulid peerId batch = some hub ∧ a.envelope.event ∈ hub

/-- The events that a step on the stores brings in. -/
def StoreOp.events : StoreOp → List Event
  | .append events => events
  | _ => []

/-- A hub since its start: what arrived, with the edge that forwarded it, and what the cold writer,
the embedder and the sweeper did. -/
structure Hub (ulid : UlidText) (config : HotRingConfig) where
  schemas : SchemaIndex
  selector : EmbedSelector
  fills : Consumer → Option FillHistory
  arrivals : List (String × Arrival)
  forwarded : ∀ x ∈ arrivals, ForwardedBy ulid x.1 x.2
  ops : List StoreOp
  appended : ∀ op ∈ ops, ∀ e ∈ op.events,
    e ∈ (normalizerRun ulid config schemas selector fills (arrivals.map Prod.snd)).1

namespace Hub

variable {ulid : UlidText} {config : HotRingConfig} (hub : Hub ulid config)

def events : List Event :=
  (normalizerRun ulid config hub.schemas hub.selector hub.fills (hub.arrivals.map Prod.snd)).1

def normalizer : Normalizer config :=
  (normalizerRun ulid config hub.schemas hub.selector hub.fills (hub.arrivals.map Prod.snd)).2

def cold : ColdStore := (Stores.openInMemory.run hub.ops).cold

/-- The hub made the event of an arrival from the edge. -/
def FromEdge (peerId : String) (e : Event) : Prop :=
  ∃ x ∈ hub.arrivals.zip hub.events, x.1.1 = peerId ∧ x.2 = e

/-- Nothing of the edge is in what the hub keeps for the source. -/
structure KeepsOut (peerId sourceId : String) : Prop where
  counter : hub.normalizer.seqBySource sourceId = UInt64.ofNat
    (hub.arrivals.countP fun x => x.1 ≠ peerId ∧ x.2.envelope.event.sourceId = sourceId)
  ring : ∀ kind, ∀ e ∈ hub.normalizer.hotRings.snapshot sourceId kind, ¬hub.FromEdge peerId e
  latest : ∀ kind e, hub.cold.latestEvent sourceId kind = some e → ¬hub.FromEdge peerId e
  window : ∀ filter anchor, ∀ e ∈ hub.cold.queryWindow filter anchor, e.sourceId = sourceId →
    ¬hub.FromEdge peerId e

end Hub

/-- Neither `peer_id` is the other one with a dot and any text behind it. -/
def PrefixApart (p q : String) : Prop := ∀ rest, q ≠ prefixed p rest ∧ p ≠ prefixed q rest

theorem prefixed_toList (p s : String) : (prefixed p s).toList = p.toList ++ '.'::s.toList := by
  simp [prefixed,String.toList_append]

theorem prefixed_prefixed (p r s : String) : prefixed (prefixed p r) s = prefixed p (prefixed r s) := by
  simp only [prefixed,String.append_assoc]

/-- Two prefixes give one text only when one of them goes on where the other ends. -/
theorem exists_rest_of_append {p q s t : List Char} (hpq : p ≠ q) (h : p ++ '.'::s = q ++ '.'::t) :
    (∃ rest, q = p ++ '.'::rest) ∨ ∃ rest, p = q ++ '.'::rest := by
  rcases List.append_eq_append_iff.mp h with ⟨a,rfl,hs⟩ | ⟨a,rfl,ht⟩
  · cases a with
    | nil => exact absurd (List.append_nil p).symm hpq
    | cons c rest =>
      obtain ⟨rfl,-⟩ := List.cons.inj hs
      exact .inl ⟨rest,rfl⟩
  · cases a with
    | nil => exact absurd (List.append_nil q) hpq
    | cons c rest =>
      obtain ⟨rfl,-⟩ := List.cons.inj ht
      exact .inr ⟨rest,rfl⟩

theorem prefixed_ne_iff {p q : String} (hpq : p ≠ q) :
    (∀ s t, prefixed p s ≠ prefixed q t) ↔ PrefixApart p q := by
  constructor
  · intro h rest
    constructor
    · intro hq
      exact h (prefixed rest "") "" (by rw [hq,prefixed_prefixed])
    · intro hp
      exact h "" (prefixed rest "") (by rw [hp,prefixed_prefixed])
  · intro h s t heq
    have hlist := congrArg String.toList heq
    rw [prefixed_toList,prefixed_toList] at hlist
    rcases exists_rest_of_append (fun hl => hpq (String.toList_inj.mp hl)) hlist with
      ⟨rest,hrest⟩ | ⟨rest,hrest⟩
    · refine (h (String.ofList rest)).1 (String.toList_inj.mp ?_)
      rw [prefixed_toList,String.toList_ofList,hrest]
    · refine (h (String.ofList rest)).2 (String.toList_inj.mp ?_)
      rw [prefixed_toList,String.toList_ofList,hrest]

theorem ForwardedBy.sourceId {ulid : UlidText} (hulid : ulid.RoundTrips) {peerId : String} {a : Arrival}
    (h : ForwardedBy ulid peerId a) : ∃ s, a.envelope.event.sourceId = prefixed peerId s := by
  obtain ⟨batch,hub,hhub,ha⟩ := h
  rw [hubEvents_eq hulid,Option.some.injEq] at hhub
  rw [← hhub] at ha
  obtain ⟨e,-,he⟩ := List.mem_map.mp ha
  rw [← he,toIngest_toClientEvent]
  exact ⟨e.sourceId,rfl⟩

namespace Normalizer

variable {config : HotRingConfig}

/-- The loop keeps the source of each arrival. -/
theorem run_sourceIds (ulid : UlidText) (takes : Consumer → ℕ → ℕ) (i : ℕ) (l : List Arrival)
    (n : Normalizer config) : (Normalizer.run ulid takes i l n).1.map (·.sourceId) =
      l.map fun a => a.envelope.event.sourceId := by
  induction l generalizing i n with
  | nil => rfl
  | cons a l ih => exact congrArg _ (ih (i+1) _)

end Normalizer

namespace Hub

variable {ulid : UlidText} {config : HotRingConfig} (hub : Hub ulid config)

theorem history : hub.normalizer.History hub.events := by
  have hstart : (spawnNormalizer config hub.schemas hub.selector hub.fills).History [] := .new rfl rfl
  exact hstart.run ulid _ 0 _

theorem sourceIds : hub.events.map (·.sourceId) =
    hub.arrivals.map fun x => x.2.envelope.event.sourceId := by
  rw [events,normalizerRun,Normalizer.run_sourceIds,List.map_map]
  rfl

theorem FromEdge.sourceId {hub : Hub ulid config} (hulid : ulid.RoundTrips) {peerId : String} {e : Event}
    (h : hub.FromEdge peerId e) : ∃ s, e.sourceId = prefixed peerId s := by
  obtain ⟨⟨x,e⟩,hx,rfl,rfl⟩ := h
  have hsame := hub.sourceIds.symm
  rw [← List.forall₂_eq_eq_eq,List.forall₂_map_left_iff,List.forall₂_map_right_iff] at hsame
  obtain ⟨s,hs⟩ := (hub.forwarded x (List.of_mem_zip hx).1).sourceId hulid
  exact ⟨s,((List.forall₂_iff_zip.mp hsame).2 hx).symm.trans hs⟩

/-- The counter of a source counts all arrivals under its name. -/
theorem counter_eq (sourceId : String) : hub.normalizer.seqBySource sourceId =
    UInt64.ofNat (hub.arrivals.countP fun x => x.2.envelope.event.sourceId = sourceId) := by
  rw [hub.history.counter]
  congr 1
  have hcount := congrArg (List.countP fun s => decide (s = sourceId)) hub.sourceIds
  rw [List.countP_map,List.countP_map] at hcount
  rw [ofSource,← List.countP_eq_length_filter]
  exact hcount

theorem ring_sourceId {sourceId kind : String} {e : Event}
    (he : e ∈ hub.normalizer.hotRings.snapshot sourceId kind) : e.sourceId = sourceId := by
  have hmem := (hub.history.ring (sourceId,kind)).subset he
  have hpair : e.pair = (sourceId,kind) := by simpa using (List.mem_filter.mp hmem).2
  exact congrArg Prod.fst hpair

theorem latest_sourceId {sourceId kind : String} {e : Event}
    (he : hub.cold.latestEvent sourceId kind = some e) : e.sourceId = sourceId := by
  obtain ⟨row,hrow,rfl⟩ := Option.map_eq_some_iff.mp he
  have hown : (Stores.openInMemory.run hub.ops).cold.OwnRows :=
    ColdStore.OwnRows.run ColdStore.OwnRows.openInMemory hub.ops
  exact congrArg Prod.fst (hown _ row hrow)

/-- What no arrival of the edge is named for stays free of the edge. -/
theorem keepsOut_of_ne (hulid : ulid.RoundTrips) {peerId sourceId : String}
    (hne : ∀ s, prefixed peerId s ≠ sourceId) : hub.KeepsOut peerId sourceId := by
  have hsource : ∀ e : Event, e.sourceId = sourceId → ¬hub.FromEdge peerId e := by
    intro e he hfrom
    obtain ⟨s,hs⟩ := hfrom.sourceId hulid
    exact hne s (hs.symm.trans he)
  refine ⟨?_,fun kind e he => hsource e (hub.ring_sourceId he),
    fun kind e he => hsource e (hub.latest_sourceId he),fun filter anchor e _ he => hsource e he⟩
  rw [hub.counter_eq]
  congr 1
  refine List.countP_congr fun x hx => ?_
  rw [decide_eq_true_iff,decide_eq_true_iff]
  refine ⟨fun h => ⟨fun hpeer => ?_,h⟩,And.right⟩
  obtain ⟨s,hs⟩ := (hub.forwarded x hx).sourceId hulid
  rw [hpeer] at hs
  exact hne s (hs.symm.trans h)

end Hub

/-- A local event as the hub gets it. -/
def forwardedArrival (peerId : String) (e : Event) : Arrival :=
  ⟨⟨(toClientEvent peerId e).toIngest,none⟩,0,0,0,0⟩

theorem forwardedBy_arrival {ulid : UlidText} (hulid : ulid.RoundTrips) (peerId : String) (e : Event) :
    ForwardedBy ulid peerId (forwardedArrival peerId e) :=
  ⟨[e],_,hubEvents_eq hulid peerId [e],List.mem_singleton_self _⟩

/-- A hub that has received one event. -/
def Hub.single {ulid : UlidText} (hulid : ulid.RoundTrips) (peerId : String) (e : Event) : Hub ulid {} where
  schemas := .empty
  selector := ⟨false,fun _ => none,fun _ => none⟩
  fills _ := none
  arrivals := [(peerId,forwardedArrival peerId e)]
  forwarded x hx := by
    obtain rfl := List.mem_singleton.mp hx
    exact forwardedBy_arrival hulid peerId e
  ops := []
  appended _ h := by cases h

/-- An edge's own event counts for its source. -/
theorem Hub.single_not_keepsOut {ulid : UlidText} (hulid : ulid.RoundTrips) (peerId s : String) :
    ¬(Hub.single hulid peerId (.required 0 s "k" 0 .null)).KeepsOut peerId (prefixed peerId s) := by
  intro h
  have hcounter := h.counter
  rw [Hub.counter_eq] at hcounter
  simp [Hub.single,forwardedArrival,toIngest_toClientEvent,Event.required] at hcounter

/-- Two edges are told apart by the hub exactly when neither `peer_id` is the beginning of the other
one up to a dot. -/
theorem edges_apart_iff {ulid : UlidText} (hulid : ulid.RoundTrips) {p q : String} (hpq : p ≠ q) :
    ((∀ s t, prefixed p s ≠ prefixed q t) ↔ PrefixApart p q) ∧
      ((∀ config, ∀ hub : Hub ulid config, ∀ s,
        hub.KeepsOut q (prefixed p s) ∧ hub.KeepsOut p (prefixed q s)) ↔ PrefixApart p q) := by
  have hne := prefixed_ne_iff hpq
  refine ⟨hne,fun h => hne.mp fun s t heq => ?_,fun h config hub s => ?_⟩
  · have hout := (h {} (Hub.single hulid q (.required 0 t "k" 0 .null)) s).1
    rw [heq] at hout
    exact Hub.single_not_keepsOut hulid q t hout
  · exact ⟨hub.keepsOut_of_ne hulid fun t ht => hne.mpr h s t ht.symm,
      hub.keepsOut_of_ne hulid fun t ht => hne.mpr h t s ht⟩

/-- The same local source on two edges. -/
theorem edges_apart_kitchen_garage :
    prefixed "kitchen" "temp.fridge" ≠ prefixed "garage" "temp.fridge" ∧
      (Hub.single crockfordText_roundTrips "garage" (.required 0 "temp.fridge" "temperature" 0
        .null)).KeepsOut "garage" (prefixed "kitchen" "temp.fridge") := by
  have hapart : PrefixApart "kitchen" "garage" := by
    refine fun rest => ⟨fun h => ?_,fun h => ?_⟩
    · simpa [prefixed_toList] using congrArg String.toList h
    · simpa [prefixed_toList] using congrArg String.toList h
  obtain ⟨hne,hout⟩ := edges_apart_iff crockfordText_roundTrips (show "kitchen" ≠ "garage" by decide)
  exact ⟨hne.mpr hapart _ _,(hout.mpr hapart _ _ _).1⟩

def edgeConfig (peerId : String) : Config :=
  { forwarders := [{ peerId, hubUrl := "http://hub:7878", resolvedHubToken := some "t" }] }

/-- One event of the source `b.c` of edge `a`, one of the source `c` of edge `a.b`. -/
def collidingArrivals : List (String × Arrival) :=
  [("a",forwardedArrival "a" (.required 1 "b.c" "k" 1 .null)),
    ("a.b",forwardedArrival "a.b" (.required 2 "c" "k" 2 .null))]

def collidingEvents : List Event :=
  (normalizerRun crockfordText {} .empty ⟨false,fun _ => none,fun _ => none⟩ (fun _ => none)
    (collidingArrivals.map Prod.snd)).1

def collidingHub : Hub crockfordText {} where
  schemas := .empty
  selector := ⟨false,fun _ => none,fun _ => none⟩
  fills _ := none
  arrivals := collidingArrivals
  forwarded x hx := by
    rcases List.mem_pair.mp hx with rfl | rfl <;> exact forwardedBy_arrival crockfordText_roundTrips _ _
  ops := [.append collidingEvents]
  appended op hop e he := by
    obtain rfl := List.mem_singleton.mp hop
    exact he

/-- The second of the two events. -/
def collidingEvent : Event := (collidingEvents.getLast?).getD (.required 0 "" "" 0 .null)

theorem fromEdge_collidingEvent : collidingHub.FromEdge "a.b" collidingEvent :=
  ⟨(("a.b",forwardedArrival "a.b" (.required 2 "c" "k" 2 .null)),collidingEvent),by
    change _ ∈ collidingArrivals.zip collidingEvents
    exact List.mem_cons_of_mem _ (List.mem_singleton_self _),rfl,rfl⟩

theorem edges_apart_fails :
    (∀ peerId ∈ ["a","a.b"], Config.load (edgeConfig peerId) [] = .ok (edgeConfig peerId)) ∧
    prefixed "a" "b.c" = prefixed "a.b" "c" ∧
    collidingHub.normalizer.seqBySource (prefixed "a" "b.c") = 2 ∧
    collidingHub.FromEdge "a.b" collidingEvent ∧
    collidingEvent ∈ collidingHub.normalizer.hotRings.snapshot (prefixed "a" "b.c") "k" ∧
    collidingHub.cold.latestEvent (prefixed "a" "b.c") "k" = some collidingEvent ∧
    collidingEvent ∈ collidingHub.cold.queryWindow ⟨0,10,none,none,10⟩ none := by
  refine ⟨?_,by decide,?_,fromEdge_collidingEvent,?_,?_,?_⟩
  · intro peerId h
    rfl
  · rfl
  · change _ ∈ collidingEvents
    exact List.mem_cons_of_mem _ (List.mem_singleton_self _)
  · rfl
  · change _ ∈ collidingEvents
    exact List.mem_cons_of_mem _ (List.mem_singleton_self _)

end Percept
