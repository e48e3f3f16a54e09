import Percept.NodeReads
import Percept.Relay

/-! An edge with its producers and its forwarder, and the hub that it forwards to with the hub's producers,
stores and clients. -/
namespace Percept

structure ChainConfig where
  edge : NodeConfig
  hub : NodeConfig
  forwarder : ForwarderConfig
  client : ClientConfig
  bearer : String

def ChainConfig.relay (cfg : ChainConfig) : RelayConfig :=
  ⟨cfg.hub.ingest,cfg.forwarder,cfg.client,cfg.bearer⟩

/-- The channel of the forwarder is the one that the edge's normalizer sends to. -/
structure Chain (cfg : ChainConfig) where
  edge : Node cfg.edge
  forwarder : Forwarder
  flushed : List (List ClientEvent × Except ClientError ℕ)
  call : Option InFlight
  posts : List (ℕ × List ClientEvent)
  strays : List (List ClientEvent)
  hub : Node cfg.hub

/-- What the forwarder, its client and the network do. -/
inductive ForwarderAction
  | recv | tick
  | arrive (nowMs : Int64) (rate : Option Duration)
  | stray (k : ℕ) (nowMs : Int64) (rate : Option Duration)
  | reply | lose (error : String)

def ForwarderAction.toRelay : ForwarderAction → RelayAction
  | .recv => .recv
  | .tick => .tick
  | .arrive nowMs rate => .arrive nowMs rate
  | .stray k nowMs rate => .stray k nowMs rate
  | .reply => .reply
  | .lose error => .lose error

/-- What goes on at the edge while its forwarder takes nothing. -/
def NodeAction.others : NodeAction → NodeAction
  | .ingest (.consume _) => .ingest (.consume fun _ => 0)
  | a => a

/-- What the forwarder's call hears of a step of the hub. -/
def NodeAction.heard {cfg : IngestConfig} (s : IngestSystem cfg) (a : NodeAction) (c : InFlight) : InFlight :=
  match a with
  | .ingest a => c.hears s a
  | _ => c

inductive ChainAction
  | edge (a : NodeAction)
  | hub (a : NodeAction)
  | forwarder (a : ForwarderAction)

namespace Chain

variable {cfg : ChainConfig}

def rx (c : Chain cfg) : Channel Event := c.edge.ingest.normalizer.forwardTx.getD (.new 0)

/-- The way from the forwarder to the bus of the hub. -/
def relay (c : Chain cfg) : Relay cfg.relay where
  hub := c.hub.ingest
  edge := ⟨c.rx,c.forwarder,c.flushed,false⟩
  call := c.call
  posts := c.posts
  strays := c.strays

def step (c : Chain cfg) : ChainAction → Chain cfg
  | .edge a => { c with edge := c.edge.step a.others }
  | .hub a => { c with hub := c.hub.step a, call := c.call.map (a.heard c.hub.ingest) }
  | .forwarder a =>
    let r := c.relay.step a.toRelay
    let took := r.edge.rx.received.length-c.rx.received.length
    { edge := c.edge.step (.ingest (.consume (Pi.single .forwarder took)))
      forwarder := r.edge.task
      flushed := r.edge.flushed
      call := r.call
      posts := r.posts
      strays := r.strays
      hub := { c.hub with ingest := r.hub } }

def run (c : Chain cfg) (l : List ChainAction) : Chain cfg := l.foldl step c

end Chain

namespace Relay

variable {cfg : RelayConfig} {r : Relay cfg}

theorem begin_rx (r : Relay cfg) : r.begin.edge.rx = r.edge.rx ∧ r.begin.edge.exited = r.edge.exited ∧
    r.begin.hub = r.hub := by
  unfold begin
  split <;> exact ⟨rfl,rfl,rfl⟩

/-- What a step of the forwarder does to its channel and to the hub. -/
structure Turn (r r' : Relay cfg) : Prop where
  rx : r'.edge.rx = r.edge.rx ∨ ∃ e rest, r.edge.rx.queue = e::rest ∧ r'.edge.rx = r.edge.rx.recv
  exited : r'.edge.exited = r.edge.exited
  hub : r'.hub = r.hub ∨ ∃ authorization body nowMs rate, r'.hub = r.hub.step (.http authorization body nowMs rate)

theorem Turn.quiet {r' : Relay cfg} (hedge : r'.edge.rx = r.edge.rx) (hexited : r'.edge.exited = r.edge.exited)
    (hhub : r'.hub = r.hub) : Turn r r' := ⟨.inl hedge,hexited,.inl hhub⟩

theorem turn_deliver (r : Relay cfg) (batch : List ClientEvent) (nowMs : Int64) (rate : Option Duration) :
    Turn r (r.deliver batch nowMs rate).1 := by
  unfold deliver
  dsimp only
  split <;> exact ⟨.inl rfl,rfl,.inr ⟨_,_,_,_,rfl⟩⟩

theorem turn_step (hopen : r.edge.rx.closed = false) (a : ForwarderAction) : Turn r (r.step a.toRelay) := by
  cases a with
  | recv =>
    simp only [ForwarderAction.toRelay,Relay.step]
    split
    · exact .quiet rfl rfl rfl
    · cases hqueue : r.edge.rx.queue with
      | nil =>
        simp only [hopen]
        exact .quiet rfl rfl rfl
      | cons e rest =>
        dsimp only
        have haccept : Turn r { r with edge := (Forwarder.run cfg.forwarder).accept r.edge e } :=
          ⟨.inr ⟨e,rest,hqueue,rfl⟩,rfl,.inl rfl⟩
        split
        · obtain ⟨hrx,hexited,hhub⟩ :=
            begin_rx { r with edge := (Forwarder.run cfg.forwarder).accept r.edge e }
          exact ⟨by rw [hrx]; exact haccept.rx,hexited,.inl hhub⟩
        · exact haccept
  | tick =>
    simp only [ForwarderAction.toRelay,Relay.step]
    split
    · exact .quiet rfl rfl rfl
    · obtain ⟨hrx,hexited,hhub⟩ := begin_rx r
      exact .quiet hrx hexited hhub
  | arrive nowMs rate =>
    simp only [ForwarderAction.toRelay,Relay.step]
    split
    next batch attempt _ =>
      have hturn := r.turn_deliver batch nowMs rate
      exact ⟨hturn.rx,hturn.exited,hturn.hub⟩
    next => exact .quiet rfl rfl rfl
  | stray k nowMs rate =>
    simp only [ForwarderAction.toRelay,Relay.step]
    split
    next => exact .quiet rfl rfl rfl
    next batch _ =>
      have hturn := r.turn_deliver batch nowMs rate
      exact ⟨hturn.rx,hturn.exited,hturn.hub⟩
  | reply =>
    simp only [ForwarderAction.toRelay,Relay.step]
    split
    · split <;> exact .quiet rfl rfl rfl
    · exact .quiet rfl rfl rfl
  | lose error =>
    simp only [ForwarderAction.toRelay,Relay.step]
    split <;> exact .quiet rfl rfl rfl

end Relay

namespace Node

variable {cfg : NodeConfig} {n : Node cfg} {p : Event → Bool} {rx : Channel Event}

/-- A node whose forwarder takes nothing only adds to the forwarder's channel. -/
theorem feeds_others (h : n.ingest.Feeds .forwarder p rx) (a : NodeAction) :
    ∃ rx', (n.step a.others).ingest.Feeds .forwarder p rx' ∧ rx'.received = rx.received := by
  cases a with
  | ingest a =>
    have hstep : ∀ a : IngestAction, (∀ takes, a.others = .consume takes → takes .forwarder = 0) →
        ∃ rx', (n.step (.ingest a)).ingest.Feeds .forwarder p rx' ∧ rx'.received = rx.received := by
      intro a htakes
      obtain ⟨rx',hrx',hreceived⟩ := h.step a.others
      exact ⟨rx',hrx',hreceived htakes⟩
    cases a with
    | consume takes =>
      refine hstep (.consume fun _ => 0) fun takes' htakes => ?_
      obtain rfl := IngestAction.consume.inj htakes
      exact Pi.single_eq_same _ _
    | http | wsOpen | wsMessage | wsClose | send | poll | normalize | close =>
      exact hstep _ fun takes htakes => by cases htakes
  | recv commit =>
    unfold NodeAction.others Node.step
    cases n.waiting .coldWriter with
    | nil => exact ⟨rx,h,rfl⟩
    | cons e rest => exact ⟨rx,feeds_taken_ne h (by decide),rfl⟩
  | embedRecv commit =>
    unfold NodeAction.others Node.step
    cases n.task with
    | none => exact ⟨rx,h,rfl⟩
    | some t =>
      cases n.waiting .embedder with
      | nil => exact ⟨rx,h,rfl⟩
      | cons e rest => exact ⟨rx,feeds_taken_ne h (by decide),rfl⟩
  | embedTick commit =>
    unfold NodeAction.others Node.step
    cases n.task <;> exact ⟨rx,h,rfl⟩
  | tick commit | sweep policies nowMs dryRun => exact ⟨rx,h,rfl⟩

/-- The forwarder takes the oldest event, or none. -/
theorem feeds_took (h : n.ingest.Feeds .forwarder p rx) {rx' : Channel Event}
    (hrx : rx' = rx ∨ ∃ e rest, rx.queue = e::rest ∧ rx' = rx.recv) :
    (n.step (.ingest (.consume (Pi.single .forwarder (rx'.received.length-rx.received.length))))).ingest.Feeds
      .forwarder p rx' := by
  have hconsume := h.consume (Pi.single .forwarder (rx'.received.length-rx.received.length))
  rw [Pi.single_eq_same] at hconsume
  have hothers : (IngestAction.consume (Pi.single .forwarder (rx'.received.length-rx.received.length))).others =
      .consume (Pi.single .forwarder (rx'.received.length-rx.received.length)) := by
    rw [IngestAction.others,Pi.single_eq_same]
  rw [Node.step,hothers]
  have hiterate : Channel.recv^[rx'.received.length-rx.received.length] rx = rx' := by
    rcases hrx with rfl | ⟨e,rest,hqueue,rfl⟩
    · rw [Nat.sub_self]
      rfl
    · rw [Channel.received_recv hqueue,List.length_append,List.length_singleton,Nat.add_sub_cancel_left]
      rfl
  rwa [hiterate] at hconsume

/-- A hub's step is one of its bus, and the forwarder's call hears the same of both. -/
theorem heard_step (n : Node cfg) (a : NodeAction) : (n.step a).ingest = n.ingest ∧ a.heard n.ingest = id ∨
    ∃ b : IngestAction, (n.step a).ingest = n.ingest.step b ∧ a.heard n.ingest = fun c => c.hears n.ingest b := by
  cases a with
  | ingest a =>
    refine .inr ⟨a.others,rfl,funext fun c => ?_⟩
    cases a <;> rfl
  | recv commit =>
    unfold Node.step
    cases n.waiting .coldWriter with
    | nil => exact .inl ⟨rfl,rfl⟩
    | cons e rest => exact .inr ⟨.consume (Pi.single .coldWriter 1),rfl,rfl⟩
  | embedRecv commit =>
    unfold Node.step
    cases n.task with
    | none => exact .inl ⟨rfl,rfl⟩
    | some t =>
      cases n.waiting .embedder with
      | nil => exact .inl ⟨rfl,rfl⟩
      | cons e rest => exact .inr ⟨.consume (Pi.single .embedder 1),rfl,rfl⟩
  | embedTick commit =>
    unfold Node.step
    cases n.task <;> exact .inl ⟨rfl,rfl⟩
  | tick commit | sweep policies nowMs dryRun => exact .inl ⟨rfl,rfl⟩

end Node

namespace Chain

variable {cfg : ChainConfig} {c : Chain cfg} {edgeStart hubStart : Stores}

/-- What holds of the edge, of the hub and of the way between them. -/
structure Inv (edgeStart hubStart : Stores) (c : Chain cfg) : Prop where
  edge : c.edge.Inv edgeStart
  feeds : ∃ rx, c.edge.ingest.Feeds .forwarder (fun _ => true) rx
  relay : c.relay.Inv
  hub : c.hub.Inv hubStart

theorem rx_eq {p : Event → Bool} {rx : Channel Event} (h : c.edge.ingest.Feeds .forwarder p rx) : c.rx = rx := by
  have hchannel : c.edge.ingest.normalizer.forwardTx = some rx := h.channel
  rw [Chain.rx,hchannel,Option.getD_some]

theorem relay_edge {p : Event → Bool} {a : NodeAction} {rx : Channel Event}
    (hrx : (c.step (.edge a)).edge.ingest.Feeds .forwarder p rx) :
    (c.step (.edge a)).relay = { c.relay with edge.rx := rx } := by
  rw [relay,rx_eq hrx]
  rfl

/-- For the way to the hub a step of the hub is one of its bus. -/
theorem relay_hub (c : Chain cfg) (a : NodeAction) : (c.step (.hub a)).relay = c.relay ∨
    ∃ b, (c.step (.hub a)).relay = c.relay.step (.hub b) := by
  have hstep : (c.step (.hub a)).relay = ⟨(c.hub.step a).ingest,c.relay.edge,
    c.call.map (a.heard c.hub.ingest),c.posts,c.strays⟩ := rfl
  rw [hstep]
  rcases c.hub.heard_step a with ⟨hingest,hheard⟩ | ⟨b,hingest,hheard⟩
  · rw [hingest,hheard,Option.map_id]
    exact .inl rfl
  · rw [hingest,hheard]
    exact .inr ⟨b,rfl⟩

theorem relay_forwarder {p : Event → Bool} {a : ForwarderAction}
    (hrx : (c.step (.forwarder a)).edge.ingest.Feeds .forwarder p (c.relay.step a.toRelay).edge.rx)
    (hexited : (c.relay.step a.toRelay).edge.exited = false) :
    (c.step (.forwarder a)).relay = c.relay.step a.toRelay := by
  rw [relay,rx_eq hrx,← hexited]
  rfl

theorem Inv.step (hulid : cfg.hub.ingest.ulid.RoundTrips) (h : Inv edgeStart hubStart c) (a : ChainAction) :
    Inv edgeStart hubStart (c.step a) := by
  obtain ⟨rx,hrx⟩ := h.feeds
  have hrxeq := rx_eq hrx
  cases a with
  | edge a =>
    obtain ⟨rx',hrx',hreceived⟩ := Node.feeds_others hrx a
    refine ⟨h.edge.step a.others,⟨rx',hrx'⟩,?_,h.hub⟩
    rw [relay_edge hrx']
    exact h.relay.channel (hreceived.trans (congrArg Channel.received hrxeq.symm))
  | hub a =>
    refine ⟨h.edge,⟨rx,hrx⟩,?_,h.hub.step a⟩
    rcases c.relay_hub a with hrelay | ⟨b,hrelay⟩
    · rw [hrelay]
      exact h.relay
    · rw [hrelay]
      exact h.relay.hub b
  | forwarder a =>
    rw [← hrxeq] at hrx
    have hturn := @Relay.turn_step _ c.relay hrx.opened a
    have htook : (c.step (.forwarder a)).edge.ingest.Feeds .forwarder (fun _ => true)
        (c.relay.step a.toRelay).edge.rx := Node.feeds_took hrx hturn.rx
    refine ⟨h.edge.step (.ingest _),⟨_,htook⟩,?_,?_⟩
    · rw [relay_forwarder htook hturn.exited]
      exact h.relay.step hulid a.toRelay
    · have hhub : (c.step (.forwarder a)).hub = { c.hub with ingest := (c.relay.step a.toRelay).hub } := rfl
      rw [hhub]
      rcases hturn.hub with hsame | ⟨authorization,body,nowMs,rate,hhttp⟩
      · rw [hsame]
        exact h.hub
      · rw [hhttp]
        exact h.hub.step (.ingest (.http authorization body nowMs rate))

theorem Inv.run (hulid : cfg.hub.ingest.ulid.RoundTrips) (h : Inv edgeStart hubStart c) (l : List ChainAction) :
    Inv edgeStart hubStart (c.run l) := by
  induction l generalizing c with
  | nil => exact h
  | cons a l ih => exact ih (h.step hulid a)

/-- The ids of the edge's events are distinct, and the hub's other producers have none of them. -/
structure OwnIds (c : Chain cfg) : Prop where
  nodup : (c.edge.ingest.pushed.map fun e => e.eventId).Nodup
  own : ∀ z ∈ c.hub.ingest.tx.received.zip c.hub.ingest.pushed,
    z.2.eventId ∈ c.edge.ingest.pushed.map (fun e => e.eventId) → ∃ x ∈ c.posts, z.1.batch = some x.1

/-- The forwarder received what the edge's normalizer made, in order and with gaps. -/
theorem Inv.received (h : Inv edgeStart hubStart c) : c.relay.edge.rx.received.Sublist c.edge.ingest.pushed := by
  obtain ⟨rx,hrx⟩ := h.feeds
  have hordered := (List.sublist_append_left rx.received rx.queue).trans hrx.ordered
  rw [List.filter_true] at hordered
  exact (congrArg Channel.received (rx_eq hrx)).symm ▸ hordered

theorem Inv.ownIds (h : Inv edgeStart hubStart c) (hown : c.OwnIds) : c.relay.OwnIds where
  nodup := hown.nodup.sublist (h.received.map _)
  own z hz hid := hown.own z hz ((h.received.map _).subset hid)

/-- An event of the hub under an id of the edge is what the hub made of the edge's event. -/
theorem Inv.forwarded (h : Inv edgeStart hubStart c) (hown : c.OwnIds) {p e : Event}
    (hp : p ∈ c.hub.ingest.pushed) (he : e ∈ c.edge.ingest.pushed) (hid : p.eventId = e.eventId) :
    Forwarded cfg.forwarder.peerId e p := by
  obtain ⟨z,hz,rfl,hreceived,hkeeps⟩ := Relay.made_of_pushed h.relay.posted hp
  obtain ⟨e',he',hforwarded⟩ := Relay.origin_of_posted h.relay.posted hreceived hkeeps
    (hown.own z hz (hid ▸ List.mem_map_of_mem he))
  obtain rfl : e' = e := List.inj_on_of_nodup_map hown.nodup (h.received.subset he') he
    (hforwarded.eventId.symm.trans hid)
  exact hforwarded

/-- Nothing is on its way from the edge to the hub's stores, and nothing was lost. -/
structure Rest (c : Chain cfg) : Prop where
  drops : c.edge.ingest.normalizer.metrics.consumerDrops "forwarder" = 0
  waiting : c.edge.waiting .forwarder = []
  buffer : c.forwarder.buf = []
  dropped : c.forwarder.metrics.eventsDropped = 0
  hub : c.hub.Settled

/-- The hub has then pushed what became of each event of the edge. -/
theorem Inv.pushed (h : Inv edgeStart hubStart c) (hrest : c.Rest) {e : Event} (he : e ∈ c.edge.ingest.pushed) :
    ∃ p ∈ c.hub.ingest.pushed, p.eventId = e.eventId := by
  obtain ⟨rx,hrx⟩ := h.feeds
  have hqueue : rx.queue = [] := (Node.waiting_eq hrx).symm.trans hrest.waiting
  have hsent := hrx.sent_eq hrest.drops
  rw [List.filter_true,Channel.sent,hqueue,List.append_nil] at hsent
  have hreceived : c.relay.edge.rx.received = c.edge.ingest.pushed :=
    (congrArg Channel.received (rx_eq hrx)).trans hsent
  have hall := Relay.accepted_all h.relay.settled hrest.dropped hrest.buffer
  refine Relay.accepted_pushed h.relay hrest.hub.drained.queue ?_
  rw [hall,hreceived]
  exact List.mem_map_of_mem he

/-- A fresh edge and a fresh hub. -/
def fresh (cfg : ChainConfig) (schemas : SchemaIndex) (capacity depth : ℕ) (embedSink : Option EmbedSink)
    (brokers : List MqttSubscriber) (vector : Option VectorIndex) (hub : Node cfg.hub) : Chain cfg where
  edge := .fresh cfg.edge schemas capacity embedSink (some (.new depth)) brokers vector
  forwarder := .new
  flushed := []
  call := none
  posts := []
  strays := []
  hub

theorem inv_fresh (hsize : 1 ≤ cfg.forwarder.batchSize) (schemas : SchemaIndex) (capacity depth : ℕ)
    (embedSink : Option EmbedSink) (brokers : List MqttSubscriber) (vector : Option VectorIndex)
    {hub : Node cfg.hub} (hhub : hub.Inv hubStart) : Inv ⟨.openInMemory,vector⟩ hubStart
      (fresh cfg schemas capacity depth embedSink brokers vector hub) where
  edge := Node.inv_fresh schemas capacity embedSink _ brokers vector
  feeds := ⟨_,rfl,rfl,rfl,List.Sublist.refl _,rfl⟩
  relay := Relay.Inv.spawn hhub.streams hsize depth
  hub := hhub

/-- The hub is swept by its own steps only. -/
theorem sweep_mem_hub {l : List ChainAction} {policies : List RetentionPolicy} {nowMs : Int64} {dryRun : Bool}
    (h : .sweep policies nowMs dryRun ∈ (c.run l).hub.ops) :
    .sweep policies nowMs dryRun ∈ c.hub.ops ∨ .hub (.sweep policies nowMs dryRun) ∈ l := by
  induction l generalizing c with
  | nil => exact .inl h
  | cons a l ih =>
    rcases ih h with hops | hl
    · cases a with
      | edge a => exact .inl hops
      | forwarder a => exact .inl hops
      | hub a =>
        have hstep : (c.step (.hub a)).hub.ops = c.hub.ops ++ c.hub.opsAlong [a] := c.hub.ops_run [a]
        rw [hstep] at hops
        rcases List.mem_append.mp hops with hops | hops
        · exact .inl hops
        · obtain rfl := List.mem_singleton.mp (Node.sweep_mem_opsAlong hops)
          exact .inr List.mem_cons_self
    · exact .inr (List.mem_cons_of_mem _ hl)

/-- From a producer of the edge to a client of the hub. Whatever the two nodes, the forwarder with its
retries and the network do, a row of the hub under the id of an event of the edge has what became of that
event on the way; and once nothing is under way and nothing was lost or swept, a client that pages through
the hub reads each event of the edge that its filter selects, once. -/
theorem edge_read_at_hub (cfg : ChainConfig) (hulid : cfg.hub.ingest.ulid.RoundTrips)
    (hsize : 1 ≤ cfg.forwarder.batchSize) (schemas : SchemaIndex) (capacity depth : ℕ)
    (embedSink : Option EmbedSink) (brokers : List MqttSubscriber) (vector : Option VectorIndex)
    (hubSchemas : SchemaIndex) (hubCapacity : ℕ) (hubSink : Option EmbedSink)
    (hubForward : Option (Channel Event)) (hubBrokers : List MqttSubscriber) (hubVector : Option VectorIndex)
    (l : List ChainAction) {codec : CursorCodec} (hcodec : codec.RoundTrips) {args : GetWindowArgs}
    (hrange : args.startMs < args.endMs) (hlimit : ∀ k, args.limit = some k → 1 ≤ k) :
    let c := (fresh cfg schemas capacity depth embedSink brokers vector
      (.fresh cfg.hub hubSchemas hubCapacity hubSink hubForward hubBrokers hubVector)).run l
    c.OwnIds →
    (∀ e ∈ c.edge.ingest.pushed, (∃ x ∈ c.edge.ingest.tx.received, Keeps x e) ∧
      ∀ row ∈ c.hub.writer.store.events.rows, row.eventId = e.eventId →
        Forwarded cfg.forwarder.peerId e row.toEvent) ∧
    (c.Rest → (∀ policies nowMs, .hub (.sweep policies nowMs false) ∉ l) →
      ∀ calls, c.hub.ingest.pushed.length/args.pageLimit.toNat ≤ calls →
        ∃ walk, c.hub.follow codec args (List.replicate calls []) none = .ok walk ∧ walk.cursor = none ∧
          walk.pages.flatten.Pairwise (fun a b => a.stamp < b.stamp) ∧
          ∀ e ∈ c.edge.ingest.pushed, ∃ p, Forwarded cfg.forwarder.peerId e p ∧
            (p ∈ walk.pages.flatten ↔ args.filter.selects p.toStored = true) ∧
            ∀ m ∈ walk.pages.flatten, m.eventId = e.eventId → m = p) := by
  intro c hown
  have h : Inv _ ⟨.openInMemory,hubVector⟩ c := (inv_fresh hsize schemas capacity depth embedSink brokers vector
    (Node.inv_fresh hubSchemas hubCapacity hubSink hubForward hubBrokers hubVector)).run hulid l
  have hpos := pageLimit_pos hlimit
  refine ⟨fun e he => ⟨Node.made_of_pushed h.edge.streams he,fun row hrow hid => ?_⟩,
    fun hrest hsweep calls hcalls => ?_⟩
  · obtain ⟨m,hm,rfl⟩ := h.hub.row_made rfl hrow
    rw [Node.toEvent_of_pushed h.hub.streams hm]
    exact h.forwarded hown hm he hid
  · have hops : ∀ policies nowMs, StoreOp.sweep policies nowMs false ∉ c.hub.ops := fun policies nowMs hmem =>
      hsweep policies nowMs ((sweep_mem_hub hmem).resolve_left List.not_mem_nil)
    obtain ⟨walk,hwalk,hdone,hread⟩ := h.hub.settled_reads rfl hcodec hrange hpos hrest.hub hops hcalls
    obtain ⟨walk',hwalk',hascending,-⟩ := h.hub.live rfl hcodec hrange hpos (List.replicate calls [])
    obtain rfl := Except.ok.inj (hwalk.symm.trans hwalk')
    refine ⟨walk,hwalk,hdone,hascending,fun e he => ?_⟩
    obtain ⟨q,hq,hqid⟩ := h.pushed hrest he
    -- the first event of the hub under the id
    obtain ⟨p,hp⟩ := Option.isSome_iff_exists.mp (List.find?_isSome (p := fun x : Event =>
      decide (x.eventId = e.eventId)).mpr ⟨q,hq,decide_eq_true hqid⟩)
    have hid : p.eventId = e.eventId := by simpa using List.find?_some hp
    refine ⟨p,h.forwarded hown (List.mem_of_find?_eq_some hp) he hid,?_,fun m hm hmid => ?_⟩
    · rw [hread p,hid]
      exact ⟨fun hselects => hselects.1,fun hselects => ⟨hselects,hp⟩⟩
    · have hfound := ((hread m).mp hm).2
      rw [hmid] at hfound
      exact Option.some.inj (hfound.symm.trans hp)

/-- Batches of two on the way. -/
def twoNodes : ChainConfig where
  edge := Node.smallNode
  hub := { ingest := { Relay.narrowBus.ingest with busDepth := 2 }, embedder := constantEmbedder }
  forwarder := { batchSize := 2 }
  client := {}
  bearer := "t"

/-- A request with two events at the edge, and the batch that they make at the hub. -/
def twoFrames : List ChainAction :=
  [.edge (.ingest (.http (some "Bearer t") (.ok (.array [Node.frameBody 5,Node.frameBody 4])) 0 none)),
    .edge (.ingest (.send 0)),.edge (.ingest (.send 0)),.edge (.ingest (.normalize 1 0 6 0)),
    .edge (.ingest (.normalize 2 0 6 0)),.forwarder .recv,.forwarder .recv,.forwarder (.arrive 0 none),
    .hub (.ingest (.send 0)),.hub (.ingest (.send 0)),.forwarder .reply,.hub (.ingest (.normalize 0 0 7 0)),
    .hub (.recv (.ok ())),.hub (.ingest (.normalize 0 0 7 0)),.hub (.recv (.ok ())),.hub (.tick (.ok ()))]

def chainAfter : Chain twoNodes :=
  (fresh twoNodes .empty 4 4 none [] none (.fresh twoNodes.hub .empty 4 none none [] none)).run twoFrames

theorem chainAfter_ownIds : chainAfter.OwnIds where
  nodup := by decide +kernel
  own z hz _ := by
    have hbatch : ∀ z ∈ chainAfter.hub.ingest.tx.received.zip chainAfter.hub.ingest.pushed, z.1.batch = some 0 := by
      decide +kernel
    have hposts : 0 ∈ chainAfter.posts.map Prod.fst := by decide +kernel
    obtain ⟨x,hx,hzero⟩ := List.mem_map.mp hposts
    exact ⟨x,hx,by rw [hbatch z hz,hzero]⟩

/-- The hub's client reads both events of the edge. -/
theorem edge_read_at_hub_frames : chainAfter.edge.ingest.pushed.length = 2 ∧
    ∃ walk, chainAfter.hub.follow fixedWidthCodec Node.beforeSeven (List.replicate 3 []) none = .ok walk ∧
      ∀ e ∈ chainAfter.edge.ingest.pushed, ∃ p ∈ walk.pages.flatten, Forwarded "edge" e p := by
  refine ⟨by decide +kernel,?_⟩
  have hread := (edge_read_at_hub twoNodes
    (by change Relay.computedText.RoundTrips; rw [Relay.computedText_eq]; exact crockfordText_roundTrips)
    (by decide) .empty 4 4 none [] none .empty 4 none none [] none twoFrames fixedWidthCodec_roundTrips
    (by decide : Node.beforeSeven.startMs < Node.beforeSeven.endMs) (by simp [Node.beforeSeven])
    chainAfter_ownIds).2
  have hrest : chainAfter.Rest := by
    refine ⟨?_,List.length_eq_zero_iff.mp ?_,List.length_eq_zero_iff.mp ?_,?_,
      ⟨⟨List.length_eq_zero_iff.mp ?_,?_⟩,List.length_eq_zero_iff.mp ?_,?_,?_⟩⟩ <;> decide +kernel
  obtain ⟨walk,hwalk,-,-,hevents⟩ := hread hrest (by simp [twoFrames]) 3 (by decide +kernel)
  refine ⟨walk,hwalk,fun e he => ?_⟩
  obtain ⟨p,hp,hmem,-⟩ := hevents e he
  have hearly : ∀ e ∈ chainAfter.edge.ingest.pushed, 0 ≤ e.tsMsUtc ∧ e.tsMsUtc < 7 := by decide +kernel
  obtain ⟨hstart,hend⟩ := hearly e he
  rw [← hp.tsMsUtc] at hstart hend
  exact ⟨p,hmem.mpr (WindowFilter.selects_iff.mpr ⟨hstart,hend,rfl,rfl⟩),hp⟩

end Chain

end Percept
