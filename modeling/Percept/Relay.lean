import Percept.BatchLoops
import Percept.ColdStream
import Percept.TokenScopes

/-! An edge that forwards to a hub. While the edge posts a batch, again for as long as the hub is busy,
the hub serves its other producers; a request or its reply can get lost, and a request that the edge no
longer waits for can still arrive. -/
namespace Percept

/-- The call of `send_batch` waits for a turn of the network, for the handler of its request, or for a
response on the way. -/
inductive Trip
  | ready | posted (batch : ℕ) | answered (response : Response)

structure InFlight where
  batch : List ClientEvent
  attempt : ℕ
  trip : Trip

structure RelayConfig where
  ingest : IngestConfig
  forwarder : ForwarderConfig
  client : ClientConfig
  bearer : String

/-- `posts` lists the batches of the hub that are requests of the edge, and `strays` the requests that
are still under way though the edge has given them up. -/
structure Relay (cfg : RelayConfig) where
  hub : IngestSystem cfg.ingest
  edge : BatchLoop Event ClientEvent Forwarder (Except ClientError ℕ)
  call : Option InFlight
  posts : List (ℕ × List ClientEvent)
  strays : List (List ClientEvent)

inductive RelayAction
  | hub (a : IngestAction)
  | offer (e : Event) | close | recv | tick
  | arrive (nowMs : Int64) (rate : Option Duration)
  | stray (k : ℕ) (nowMs : Int64) (rate : Option Duration)
  | reply | lose (error : String)

namespace IngestSystem

variable {cfg : IngestConfig}

/-- The response to a request that is not let into a sending loop. -/
def refusal (s : IngestSystem cfg) (authorization : Option String) (body : Except String Json)
    (nowMs : Int64) (rate : Option Duration) : Option Response :=
  match authenticate cfg.auth authorization with
  | .error resp => some resp
  | .ok scope => match (httpAdmit s.view (scope.withRate rate) body nowMs).1 with
    | .error resp => some resp
    | .ok _ => none

/-- The response of a handler at its next send, if that is its last one. -/
def answer (s : IngestSystem cfg) (i : ℕ) : Option Response :=
  match s.batches[i]? with
  | none => none
  | some b =>
    if b.stopped then none
    else match b.events[b.sent]? with
      | none => none
      | some e => match s.tx.trySend ⟨some i,b.scope.envelope e⟩ with
        | .ok _ =>
          if b.sent+1 = b.events.length then some { status := 200, body := .accepted (b.sent+1) } else none
        | .error .full => some (shedResponse .busFull (some ⟨0,100000000⟩))
        | .error .closed => some { status := 503, body := .text "shutting down" }

end IngestSystem

/-- The handler of the call's request answers. -/
def InFlight.hears {cfg : IngestConfig} (s : IngestSystem cfg) (c : InFlight) : IngestAction → InFlight
  | .send i => match c.trip with
    | .posted j => if i = j then { c with trip := ((s.answer i).map Trip.answered).getD c.trip } else c
    | _ => c
  | _ => c

namespace Relay

variable {cfg : RelayConfig}

def authorization (cfg : RelayConfig) : Option String := some ("Bearer " ++ cfg.bearer)

def spawn (hub : IngestSystem cfg.ingest) (capacity : ℕ) : Relay cfg :=
  ⟨hub,BatchTask.start .new capacity,none,[],[]⟩

/-- The call is over. -/
def settle (r : Relay cfg) (result : Except ClientError ℕ) : Relay cfg :=
  { r with edge := (Forwarder.run cfg.forwarder).flushAll r.edge result, call := none }

/-- `flush`, up to the first attempt. -/
def begin (r : Relay cfg) : Relay cfg :=
  if cfg.client.maxAttempts = 0 then r.settle (.error (.retriesExhausted cfg.client.maxAttempts 0 none))
  else { r with call := some ⟨r.edge.task.buf,0,.ready⟩ }

/-- A request with a batch of the edge reaches the hub. -/
def deliver (r : Relay cfg) (batch : List ClientEvent) (nowMs : Int64) (rate : Option Duration) :
    Relay cfg × Trip :=
  let body := .ok (envelope cfg.ingest.ulid batch)
  let hub := r.hub.http (authorization cfg) body nowMs rate
  match r.hub.refusal (authorization cfg) body nowMs rate with
  | some resp => ({ r with hub },.answered resp)
  | none => ({ r with hub, posts := r.posts ++ [(r.hub.batches.length,batch)] },
      .posted r.hub.batches.length)

/-- A step; one that is not possible now changes nothing. -/
def step (r : Relay cfg) : RelayAction → Relay cfg
  | .hub a => { r with hub := r.hub.step a, call := r.call.map fun c => c.hears r.hub a }
  | .offer e => { r with edge := (Forwarder.run cfg.forwarder).step r.edge (.send e) }
  | .close => { r with edge := (Forwarder.run cfg.forwarder).step r.edge .close }
  | .recv =>
    if r.call.isSome || r.edge.exited then r
    else match r.edge.rx.queue with
      | e::_ =>
        let r := { r with edge := (Forwarder.run cfg.forwarder).accept r.edge e }
        if cfg.forwarder.batchSize ≤ r.edge.task.buf.length then r.begin else r
      | [] =>
        if r.edge.rx.closed then
          if r.edge.task.buf.isEmpty then { r with edge.exited := true } else r.begin
        else r
  | .tick => if r.call.isSome || r.edge.exited || r.edge.task.buf.isEmpty then r else r.begin
  | .arrive nowMs rate => match r.call with
    | some ⟨batch,attempt,.ready⟩ =>
      let (r,trip) := r.deliver batch nowMs rate
      { r with call := some ⟨batch,attempt,trip⟩ }
    | _ => r
  | .stray k nowMs rate => match r.strays[k]? with
    | none => r
    | some batch => { (r.deliver batch nowMs rate).1 with strays := r.strays.eraseIdx k }
  | .reply => match r.call with
    | some ⟨batch,attempt,.answered resp⟩ => match cfg.client.onResponse attempt resp with
      | .done result => r.settle result
      | .again _ => { r with call := some ⟨batch,attempt+1,.ready⟩ }
    | _ => r
  | .lose error => match r.call with
    | none => r
    | some c =>
      let strays := match c.trip with
        | .ready => r.strays ++ [c.batch]
        | _ => r.strays
      { r.settle (.error (.network error)) with strays }

def run (r : Relay cfg) (l : List RelayAction) : Relay cfg := l.foldl step r

end Relay

/-- The verdict of the checks does not depend on the counters. -/
theorem checkEvents_verdict (s : HttpState) (scope : TokenScope) (nowMs : Int64) (events : List IngestEvent)
    (metrics m m' : Metrics) : (checkEvents { s with metrics } scope nowMs events m).1 =
      (checkEvents s scope nowMs events m').1 := by
  induction events generalizing m m' with
  | nil => rfl
  | cons e events ih =>
    simp only [checkEvents]
    split_ifs
    · rfl
    · rfl
    · exact ih _ _
    · exact ih _ _

theorem httpAdmit_verdict (s : HttpState) (scope : TokenScope) (body : Except String Json) (nowMs : Int64)
    (metrics : Metrics) : (httpAdmit { s with metrics } scope body nowMs).1 =
      (httpAdmit s scope body nowMs).1 := by
  unfold httpAdmit
  dsimp only
  split
  · rfl
  · rfl
  next events hne hparse =>
    have hcheck := checkEvents_verdict s scope nowMs events metrics metrics s.metrics
    rcases h : checkEvents { s with metrics } scope nowMs events metrics with ⟨_ | reason,m⟩
    · rcases h' : checkEvents s scope nowMs events s.metrics with ⟨_ | reason,m'⟩
      · simp only
        split <;> rfl
      · rw [h,h'] at hcheck
        cases hcheck
    · rcases h' : checkEvents s scope nowMs events s.metrics with ⟨_ | reason',m'⟩
      · rw [h,h'] at hcheck
        cases hcheck
      · rw [h,h'] at hcheck
        obtain rfl := Option.some.inj hcheck
        rfl

theorem parsePayload_envelope {ulid : UlidText} (hulid : ulid.RoundTrips) (events : List ClientEvent) :
    parsePayload ulid (.ok (envelope ulid events)) = .ok (events.map ClientEvent.toIngest) := by
  obtain ⟨payload,hpayload,hevents⟩ := Option.map_eq_some_iff.mp (IngestPayload.ofJson_envelope hulid events)
  rw [parsePayload,hpayload]
  exact congrArg Except.ok hevents

namespace IngestSystem

variable {cfg : IngestConfig} {s s' : IngestSystem cfg} {a : IngestAction}

/-- The batches of a hub stay what they are, and one that is on the bus stays there. -/
def Grows (s s' : IngestSystem cfg) : Prop :=
  ∀ (i : ℕ) (b : Batch cfg), s.batches[i]? = some b → ∃ b', s'.batches[i]? = some b' ∧
    b'.events = b.events ∧ (b.sent = b.events.length → b'.sent = b.sent)

theorem grows_of_eq (batches : s'.batches = s.batches) : s.Grows s' :=
  fun _ b hb => ⟨b,by rw [batches]; exact hb,rfl,fun _ => rfl⟩

theorem grows_of_set {i : ℕ} {b b' : Batch cfg} (found : s.batches[i]? = some b)
    (batches : s'.batches = s.batches.set i b') (hevents : b'.events = b.events)
    (hsent : b.sent = b.events.length → b'.sent = b.sent) : s.Grows s' := by
  intro j x hx
  rw [batches]
  by_cases hij : i = j
  · subst hij
    rw [found] at hx
    obtain rfl := Option.some.inj hx
    exact ⟨b',List.getElem?_set_self (List.getElem?_eq_some_iff.mp found).1,hevents,hsent⟩
  · exact ⟨x,by rw [List.getElem?_set_ne hij]; exact hx,rfl,fun _ => rfl⟩

theorem grows_effect (heffect : Effect s a s') : s.Grows s' := by
  cases heffect with
  | quiet _ batches _ => exact grows_of_eq batches
  | publish _ _ _ _ _ _ _ _ _ _ _ batches _ => exact grows_of_eq batches
  | normalize _ _ _ _ _ _ _ _ batches _ => exact grows_of_eq batches
  | accept b _ batches _ _ =>
    intro i x hx
    exact ⟨x,by rw [batches,List.getElem?_append_left (List.getElem?_eq_some_iff.mp hx).1]; exact hx,rfl,
      fun _ => rfl⟩
  | stop i b _ found batches _ => exact grows_of_set found batches rfl fun _ => rfl
  | enqueue i b e _ found next batches _ =>
    refine grows_of_set found batches rfl fun hall => ?_
    rw [hall,List.getElem?_eq_none le_rfl] at next
    cases next

theorem grows_step (s : IngestSystem cfg) (a : IngestAction) : s.Grows (s.step a) :=
  grows_effect (s.step_effect a)

/-- A request that is not refused becomes the next batch. -/
theorem http_of_refusal {authorization : Option String} {body : Except String Json} {nowMs : Int64}
    {rate : Option Duration} (h : s.refusal authorization body nowMs rate = none) :
    ∃ b, (s.http authorization body nowMs rate).batches = s.batches ++ [b] ∧
      parsePayload cfg.ulid body = .ok b.events := by
  unfold refusal at h
  unfold http
  split
  next resp hauth =>
    rw [hauth] at h
    cases h
  next scope hauth =>
    rw [hauth] at h
    dsimp only at h ⊢
    split
    next resp haccept =>
      have hverdict := httpAdmit_verdict s.view (scope.withRate rate) body nowMs
        (httpAdmit s.view (scope.withRate rate) body nowMs).2
      have hrefused := hverdict.symm.trans haccept
      rw [hrefused] at h
      cases h
    next events haccept => exact ⟨_,rfl,(httpAdmit_ok haccept).1⟩

/-- A refusal is not a success. -/
theorem refusal_status {authorization : Option String} {body : Except String Json} {nowMs : Int64}
    {rate : Option Duration} {resp : Response} (h : s.refusal authorization body nowMs rate = some resp) :
    resp.status ≠ 200 := by
  unfold refusal at h
  split at h
  next resp' hauth =>
    obtain rfl := Option.some.inj h
    unfold authenticate at hauth
    split at hauth
    · cases hauth
      simp
    · split at hauth <;> cases hauth
      simp
  next scope hauth =>
    split at h
    next resp' hadmit =>
      obtain rfl := Option.some.inj h
      unfold httpAdmit at hadmit
      split at hadmit
      · cases hadmit; simp
      · cases hadmit; simp
      · split at hadmit
        · cases hadmit; simp [shedResponse]
        · split at hadmit <;> cases hadmit
          simp [shedResponse]
    · cases h

/-- A handler that answers with a success has its whole batch on the bus. -/
theorem answer_ok {i : ℕ} {resp : Response} (h : s.answer i = some resp) (hstatus : resp.status = 200) :
    ∃ b, s.batches[i]? = some b ∧ (∃ b', (s.send i).batches[i]? = some b' ∧ b'.events = b.events ∧
      b'.sent = b'.events.length) ∧ resp.body = .accepted b.events.length := by
  unfold answer at h
  split at h
  · cases h
  next b hb =>
    split at h
    · cases h
    next hrunning =>
      split at h
      · cases h
      next e he =>
        have hlt := (List.getElem?_eq_some_iff.mp hb).1
        split at h
        next tx htx =>
          split at h
          next hlast =>
            obtain rfl := Option.some.inj h
            refine ⟨b,hb,⟨{ b with sent := b.sent+1 },?_,rfl,hlast⟩,congrArg Body.accepted hlast⟩
            simp only [send,hb,hrunning,he,htx]
            exact List.getElem?_set_self hlt
          · cases h
        · cases h
          simp [shedResponse] at hstatus
        · cases h
          simp at hstatus

end IngestSystem

/-- What a result says was accepted. -/
def acceptedOf : Except ClientError ℕ → ℕ
  | .ok n => n
  | .error _ => 0

/-- Only a response 200 with a count ends a call well. -/
theorem onResponse_ok {cfg : ClientConfig} {attempt n : ℕ} {resp : Response}
    {result : Except ClientError ℕ} (h : cfg.onResponse attempt resp = .done result) (hok : result = .ok n) :
    resp.status = 200 ∧ resp.body = .accepted n := by
  unfold ClientConfig.onResponse at h
  dsimp only at h
  split_ifs at h with h200 <;> obtain rfl := Attempt.done.inj h
  · refine ⟨h200,?_⟩
    cases hbody : resp.body with
    | text t => rw [hbody] at hok; cases hok
    | accepted m => rw [hbody] at hok; rw [Except.ok.inj hok]
  all_goals cases hok

namespace Relay

variable {cfg : RelayConfig} {r r' : Relay cfg}

/-- All of the batch is on the bus of the hub. -/
def Delivered (r : Relay cfg) (batch : List ClientEvent) : Prop :=
  ∃ i b, (i,batch) ∈ r.posts ∧ r.hub.batches[i]? = some b ∧ b.sent = b.events.length

/-- The edge received the events of the batch. -/
def Received (r : Relay cfg) (batch : List ClientEvent) : Prop :=
  batch ⊆ r.edge.rx.received.map (toClientEvent cfg.forwarder.peerId)

/-- What holds of a call on its way. -/
structure Calling (r : Relay cfg) (c : InFlight) : Prop where
  batch : c.batch = r.edge.task.buf
  nonempty : 0 < c.batch.length
  bounded : c.batch.length ≤ cfg.forwarder.batchSize
  posted : ∀ i, c.trip = .posted i → (i,c.batch) ∈ r.posts
  answered : ∀ resp, c.trip = .answered resp → resp.status = 200 →
    r.Delivered c.batch ∧ resp.body = .accepted c.batch.length

/-- The hub's side. -/
structure Posted (r : Relay cfg) : Prop where
  streams : r.hub.Streams
  batches : ∀ x ∈ r.posts, ∃ b, r.hub.batches[x.1]? = some b ∧ b.events = x.2.map ClientEvent.toIngest
  received : ∀ x ∈ r.posts, r.Received x.2
  strays : ∀ batch ∈ r.strays, r.Received batch

/-- The edge's side. -/
structure Settled (r : Relay cfg) : Prop where
  order : (Forwarder.run cfg.forwarder).InOrder r.edge
  result : ∀ f ∈ r.edge.flushed, ∀ n, f.2 = .ok n → n = f.1.length ∧ r.Delivered f.1
  counted : r.edge.task.metrics.eventsForwarded = (r.edge.flushed.map fun f => acceptedOf f.2).sum
  dropped : r.edge.task.metrics.eventsForwarded+r.edge.task.metrics.eventsDropped =
    (r.edge.flushed.flatMap Prod.fst).length

structure Inv (r : Relay cfg) : Prop where
  posted : r.Posted
  settled : r.Settled
  short : r.call = none → r.edge.task.buf.length < cfg.forwarder.batchSize
  calling : ∀ c, r.call = some c → r.Calling c

/-- A larger hub has all that was delivered. -/
theorem Delivered.mono {batch : List ClientEvent} (h : r.Delivered batch) (hposts : r.posts ⊆ r'.posts)
    (hhub : r.hub.Grows r'.hub) : r'.Delivered batch := by
  obtain ⟨i,b,hmem,hb,hsent⟩ := h
  obtain ⟨b',hb',hevents,hkept⟩ := hhub i b hb
  exact ⟨i,b',hposts hmem,hb',by rw [hkept hsent,hevents,hsent]⟩

theorem Received.mono {batch : List ClientEvent} (h : r.Received batch)
    (hreceived : r.edge.rx.received ⊆ r'.edge.rx.received) : r'.Received batch :=
  List.Subset.trans h (List.map_subset _ hreceived)

/-- The buffer has been received. -/
theorem Settled.received (h : r.Settled) : r.Received r.edge.task.buf := by
  have horder : r.edge.flushed.flatMap Prod.fst ++ r.edge.task.buf =
      r.edge.rx.received.map (toClientEvent cfg.forwarder.peerId) := h.order.order
  rw [Received,← horder]
  exact List.subset_append_right _ _

/-- The hub takes a step, and the edge none. -/
theorem Settled.of_hub (h : r.Settled) (hedge : r'.edge = r.edge) (hposts : r.posts ⊆ r'.posts)
    (hhub : r.hub.Grows r'.hub) : r'.Settled where
  order := by rw [hedge]; exact h.order
  result f hf n hn := by
    rw [hedge] at hf
    obtain ⟨hlen,hdelivered⟩ := h.result f hf n hn
    exact ⟨hlen,hdelivered.mono hposts hhub⟩
  counted := by rw [hedge]; exact h.counted
  dropped := by rw [hedge]; exact h.dropped

/-- The edge takes a step, and the hub none. -/
theorem Posted.of_edge (h : r.Posted) (hhub : r'.hub = r.hub) (hposts : r'.posts = r.posts)
    (hstrays : ∀ batch ∈ r'.strays, batch ∈ r.strays ∨ r'.Received batch)
    (hreceived : r.edge.rx.received ⊆ r'.edge.rx.received) : r'.Posted where
  streams := by rw [hhub]; exact h.streams
  batches := by rw [hhub,hposts]; exact h.batches
  received x hx := (h.received x (hposts ▸ hx)).mono hreceived
  strays batch hbatch := (hstrays batch hbatch).elim (fun hmem => (h.strays batch hmem).mono hreceived) id

/-- The buffer is flushed with a result that says no more than the truth. -/
theorem Settled.settle (h : r.Settled) {result : Except ClientError ℕ} (hpos : 0 < r.edge.task.buf.length)
    (hle : r.edge.task.buf.length ≤ cfg.forwarder.batchSize)
    (hresult : ∀ n, result = .ok n → n = r.edge.task.buf.length ∧ r.Delivered r.edge.task.buf) :
    (r.settle result).Settled where
  order := h.order.flushAll hpos hle result
  result f hf n hn := by
    rcases List.mem_append.mp hf with hf | hf
    · exact h.result f hf n hn
    · obtain rfl := List.mem_singleton.mp hf
      exact hresult n hn
  counted := by
    have hcount := h.counted
    change (r.edge.task.flush result).metrics.eventsForwarded = ((r.edge.flushed ++ [_]).map _).sum
    rw [List.map_append,List.sum_append,← hcount]
    cases result <;> rfl
  dropped := by
    have hsum := h.dropped
    change (r.edge.task.flush result).metrics.eventsForwarded+(r.edge.task.flush result).metrics.eventsDropped =
      ((r.edge.flushed ++ [(r.edge.task.buf,result)]).flatMap Prod.fst).length
    rw [List.flatMap_append,List.flatMap_singleton,List.length_append,← hsum]
    cases result with
    | error e =>
      change _+(r.edge.task.metrics.eventsDropped+r.edge.task.buf.length) = _
      exact (Nat.add_assoc ..).symm
    | ok n =>
      obtain ⟨rfl,-⟩ := hresult n rfl
      simp only [Forwarder.flush,lt_irrefl,if_false]
      omega

/-- The call ends, and so does what was known of it. -/
theorem Inv.settle (hposted : r.Posted) (h : r.Settled) {result : Except ClientError ℕ}
    (hpos : 0 < r.edge.task.buf.length) (hle : r.edge.task.buf.length ≤ cfg.forwarder.batchSize)
    (hresult : ∀ n, result = .ok n → n = r.edge.task.buf.length ∧ r.Delivered r.edge.task.buf) :
    (r.settle result).Inv where
  posted := hposted.of_edge rfl rfl (fun _ hbatch => .inl hbatch) (List.Subset.refl _)
  settled := h.settle hpos hle hresult
  short _ := by
    have hbuf : (r.settle result).edge.task.buf = [] := (Forwarder.run cfg.forwarder).buf_flush _ _
    rw [hbuf]
    exact hpos.trans_le hle
  calling c hc := by cases hc

theorem Inv.begin (hposted : r.Posted) (h : r.Settled) (hpos : 0 < r.edge.task.buf.length)
    (hle : r.edge.task.buf.length ≤ cfg.forwarder.batchSize) : r.begin.Inv := by
  unfold Relay.begin
  split
  · exact .settle hposted h hpos hle fun n hn => by cases hn
  · refine ⟨hposted.of_edge rfl rfl (fun _ hbatch => .inl hbatch) (List.Subset.refl _),
      ⟨h.order,h.result,h.counted,h.dropped⟩,fun hnone => (by cases hnone),fun c hc => ?_⟩
    obtain rfl := Option.some.inj hc
    exact ⟨rfl,hpos,hle,fun i hi => (by cases hi),fun resp hresp => (by cases hresp)⟩

/-- What the hub does by itself. -/
theorem Posted.hub (h : r.Posted) (a : IngestAction) (call : Option InFlight) :
    Posted { r with hub := r.hub.step a,call } where
  streams := h.streams.step a
  batches x hx := by
    obtain ⟨b,hb,hevents⟩ := h.batches x hx
    obtain ⟨b',hb',hsame,_⟩ := r.hub.grows_step a x.1 b hb
    exact ⟨b',hb',hsame.trans hevents⟩
  received := h.received
  strays := h.strays

/-- A call hears no more than its handler says. -/
theorem Calling.hears (h : r.Posted) {c : InFlight} (hc : r.Calling c) (a : IngestAction) (call : Option InFlight) :
    Calling { r with hub := r.hub.step a,call } (c.hears r.hub a) := by
  have hgrows := r.hub.grows_step a
  have hkeep : Calling { r with hub := r.hub.step a,call } c :=
    ⟨hc.batch,hc.nonempty,hc.bounded,hc.posted,fun resp hresp hstatus =>
      ⟨(hc.answered resp hresp hstatus).1.mono (List.Subset.refl _) hgrows,
        (hc.answered resp hresp hstatus).2⟩⟩
  cases a with
  | send i =>
    obtain ⟨batch,attempt,trip⟩ := c
    cases trip with
    | ready => exact hkeep
    | answered resp => exact hkeep
    | posted j =>
      simp only [InFlight.hears]
      split
      next hij =>
        subst hij
        cases hanswer : r.hub.answer i with
        | none => exact hkeep
        | some resp =>
          refine ⟨hc.batch,hc.nonempty,hc.bounded,fun i' hi' => (by cases hi'),fun resp' hresp hstatus => ?_⟩
          obtain rfl := Trip.answered.inj hresp
          obtain ⟨b,hb,⟨b',hb',hsame,hall⟩,hbody⟩ := IngestSystem.answer_ok hanswer hstatus
          have hmem := hc.posted i rfl
          obtain ⟨x,hx,hevents⟩ := h.batches _ hmem
          obtain rfl := Option.some.inj (hx.symm.trans hb)
          refine ⟨⟨i,b',hmem,hb',hall⟩,?_⟩
          rw [hbody,hevents,List.length_map]
      next => exact hkeep
  | _ => exact hkeep

theorem Inv.hub (h : r.Inv) (a : IngestAction) : (r.step (.hub a)).Inv where
  posted := h.posted.hub a _
  settled := h.settled.of_hub rfl (List.Subset.refl _) (r.hub.grows_step a)
  short hnone := h.short (Option.map_eq_none_iff.mp hnone)
  calling c hc := by
    obtain ⟨c',hc',rfl⟩ := Option.map_eq_some_iff.mp hc
    exact (h.calling c' hc').hears h.posted a _

/-- A channel step of the edge. -/
theorem Inv.channel (h : r.Inv) {rx : Channel Event} (hreceived : rx.received = r.edge.rx.received) :
    Inv { r with edge.rx := rx } where
  posted := h.posted.of_edge rfl rfl (fun _ hbatch => .inl hbatch)
    (by rw [hreceived]; exact List.Subset.refl _)
  settled := ⟨⟨by rw [hreceived]; exact h.settled.order.order,h.settled.order.sizes⟩,h.settled.result,
    h.settled.counted,h.settled.dropped⟩
  short := h.short
  calling c hc :=
    have hcall := h.calling c hc
    ⟨hcall.batch,hcall.nonempty,hcall.bounded,hcall.posted,hcall.answered⟩

/-- The oldest event goes from the edge's channel into the buffer. -/
theorem Inv.accept (h : r.Inv) {e : Event} {rest : List Event} (hqueue : r.edge.rx.queue = e::rest) :
    Posted { r with edge := (Forwarder.run cfg.forwarder).accept r.edge e } ∧
      Settled { r with edge := (Forwarder.run cfg.forwarder).accept r.edge e } := by
  refine ⟨h.posted.of_edge rfl rfl (fun _ hbatch => .inl hbatch) ?_,
    h.settled.order.accept hqueue,h.settled.result,h.settled.counted,h.settled.dropped⟩
  change r.edge.rx.received ⊆ r.edge.rx.recv.received
  rw [Channel.received_recv hqueue]
  exact List.subset_append_left _ _

theorem Inv.recv (h : r.Inv) : (r.step .recv).Inv := by
  simp only [Relay.step]
  split
  · exact h
  next hidle =>
    obtain ⟨hcall,hopen⟩ : r.call = none ∧ r.edge.exited = false := by simpa using hidle
    have hshort := h.short hcall
    split
    next e rest hqueue =>
      obtain ⟨hposted,hsettled⟩ := h.accept hqueue
      have hlength : ((Forwarder.run cfg.forwarder).accept r.edge e).task.buf.length =
          r.edge.task.buf.length+1 := by
        simp [BatchTask.accept,Forwarder.run]
      split
      · exact .begin hposted hsettled (by dsimp only; omega) (by dsimp only; omega)
      next hroom =>
        exact ⟨hposted,hsettled,fun _ => not_le.mp hroom,fun c hc => (by rw [hcall] at hc; cases hc)⟩
    next hqueue =>
      split
      · split
        · refine ⟨h.posted.of_edge rfl rfl (fun _ hbatch => .inl hbatch) (List.Subset.refl _),
            ⟨⟨h.settled.order.order,h.settled.order.sizes⟩,h.settled.result,h.settled.counted,
              h.settled.dropped⟩,h.short,
            fun c hc => (by rw [hcall] at hc; cases hc)⟩
        next hne =>
          have hpos : 0 < r.edge.task.buf.length := by simpa [List.length_pos_iff] using hne
          exact .begin h.posted h.settled hpos hshort.le
      · exact h

theorem Inv.tick (h : r.Inv) : (r.step .tick).Inv := by
  simp only [Relay.step]
  split
  · exact h
  next hidle =>
    obtain ⟨⟨hcall,_⟩,hne⟩ : (r.call = none ∧ r.edge.exited = false) ∧ r.edge.task.buf ≠ [] := by
      simpa using hidle
    exact .begin h.posted h.settled (List.length_pos_iff.mpr hne) (h.short hcall).le

/-- What the hub makes of a request with a batch of the edge. -/
theorem deliver_spec (hulid : cfg.ingest.ulid.RoundTrips) (h : r.Posted) {batch : List ClientEvent}
    (hreceived : r.Received batch) (nowMs : Int64) (rate : Option Duration) :
    (r.deliver batch nowMs rate).1.Posted ∧ (r.deliver batch nowMs rate).1.edge = r.edge ∧
      (r.deliver batch nowMs rate).1.call = r.call ∧
      r.posts ⊆ (r.deliver batch nowMs rate).1.posts ∧ r.hub.Grows (r.deliver batch nowMs rate).1.hub ∧
      (∀ i, (r.deliver batch nowMs rate).2 = .posted i → (i,batch) ∈ (r.deliver batch nowMs rate).1.posts) ∧
      ∀ resp, (r.deliver batch nowMs rate).2 = .answered resp → resp.status ≠ 200 := by
  have hgrows := r.hub.grows_step (.http (authorization cfg) (.ok (envelope cfg.ingest.ulid batch)) nowMs rate)
  have hposted := h.hub (.http (authorization cfg) (.ok (envelope cfg.ingest.ulid batch)) nowMs rate) r.call
  cases hrefusal : r.hub.refusal (authorization cfg) (.ok (envelope cfg.ingest.ulid batch)) nowMs rate with
  | some resp =>
    have hdeliver : r.deliver batch nowMs rate =
        ({ r with hub := r.hub.http (authorization cfg) (.ok (envelope cfg.ingest.ulid batch)) nowMs rate },
          .answered resp) := by
      simp only [deliver,hrefusal]
    rw [hdeliver]
    refine ⟨hposted,rfl,rfl,List.Subset.refl _,hgrows,fun i hi => (by cases hi),fun resp' hresp => ?_⟩
    obtain rfl := Trip.answered.inj hresp
    exact IngestSystem.refusal_status hrefusal
  | none =>
    obtain ⟨b,hbatches,hparse⟩ := IngestSystem.http_of_refusal hrefusal
    rw [parsePayload_envelope hulid] at hparse
    have hevents := Except.ok.inj hparse
    have hdeliver : r.deliver batch nowMs rate =
        ({ r with
          hub := r.hub.http (authorization cfg) (.ok (envelope cfg.ingest.ulid batch)) nowMs rate
          posts := r.posts ++ [(r.hub.batches.length,batch)] },.posted r.hub.batches.length) := by
      simp only [deliver,hrefusal]
    rw [hdeliver]
    refine ⟨⟨hposted.streams,fun x hx => ?_,fun x hx => ?_,h.strays⟩,rfl,rfl,List.subset_append_left _ _,hgrows,
      fun i hi => ?_,fun resp hresp => (by cases hresp)⟩
    · rcases List.mem_append.mp hx with hx | hx
      · exact hposted.batches x hx
      · obtain rfl := List.mem_singleton.mp hx
        refine ⟨b,?_,hevents.symm⟩
        rw [hbatches,List.getElem?_concat_length]
    · rcases List.mem_append.mp hx with hx | hx
      · exact h.received x hx
      · obtain rfl := List.mem_singleton.mp hx
        exact hreceived
    · obtain rfl := Trip.posted.inj hi
      exact List.mem_append_right _ (List.mem_singleton.mpr rfl)

theorem Inv.arrive (hulid : cfg.ingest.ulid.RoundTrips) (h : r.Inv) (nowMs : Int64)
    (rate : Option Duration) : (r.step (.arrive nowMs rate)).Inv := by
  cases hcall : r.call with
  | none =>
    simp only [Relay.step,hcall]
    exact h
  | some c =>
    obtain ⟨batch,attempt,trip⟩ := c
    cases trip with
    | posted i => simp only [Relay.step,hcall]; exact h
    | answered resp => simp only [Relay.step,hcall]; exact h
    | ready =>
      have hc := h.calling _ hcall
      have hbatch : batch = r.edge.task.buf := hc.batch
      obtain ⟨hposted,hedge,_,hposts,hgrows,htrip,hrefused⟩ := deliver_spec hulid h.posted
        (hbatch ▸ h.settled.received : r.Received batch) nowMs rate
      simp only [Relay.step,hcall]
      refine ⟨⟨hposted.streams,hposted.batches,hposted.received,hposted.strays⟩,
        h.settled.of_hub hedge hposts hgrows,fun hnone => (by cases hnone),fun c' hc' => ?_⟩
      obtain rfl := Option.some.inj hc'
      exact ⟨by rw [hedge]; exact hbatch,hc.nonempty,hc.bounded,htrip,
        fun resp hresp hstatus => absurd hstatus (hrefused resp hresp)⟩

theorem Inv.stray (hulid : cfg.ingest.ulid.RoundTrips) (h : r.Inv) (k : ℕ) (nowMs : Int64)
    (rate : Option Duration) : (r.step (.stray k nowMs rate)).Inv := by
  simp only [Relay.step]
  split
  · exact h
  next batch hk =>
    obtain ⟨hposted,hedge,hsame,hposts,hgrows,-⟩ := deliver_spec hulid h.posted
      (h.posted.strays batch (List.mem_of_getElem? hk)) nowMs rate
    refine ⟨⟨hposted.streams,hposted.batches,hposted.received,fun b hb => ?_⟩,
      h.settled.of_hub hedge hposts hgrows,fun hnone => ?_,fun c hc => ?_⟩
    · have hreceived := h.posted.strays b (List.mem_of_mem_eraseIdx hb)
      exact hreceived.mono (by rw [hedge]; exact List.Subset.refl _)
    · rw [hedge]
      exact h.short (hsame ▸ hnone)
    · have hcall := h.calling c (hsame ▸ hc)
      exact ⟨by rw [hedge]; exact hcall.batch,hcall.nonempty,hcall.bounded,
        fun i hi => hposts (hcall.posted i hi),fun resp hresp hstatus =>
          ⟨(hcall.answered resp hresp hstatus).1.mono hposts hgrows,(hcall.answered resp hresp hstatus).2⟩⟩

theorem Inv.reply (h : r.Inv) : (r.step .reply).Inv := by
  cases hcall : r.call with
  | none => simp only [Relay.step,hcall]; exact h
  | some c =>
    obtain ⟨batch,attempt,trip⟩ := c
    cases trip with
    | posted i => simp only [Relay.step,hcall]; exact h
    | ready => simp only [Relay.step,hcall]; exact h
    | answered resp =>
      have hc := h.calling _ hcall
      have hbatch : batch = r.edge.task.buf := hc.batch
      have hpos : 0 < r.edge.task.buf.length := hbatch ▸ hc.nonempty
      have hle : r.edge.task.buf.length ≤ cfg.forwarder.batchSize := hbatch ▸ hc.bounded
      simp only [Relay.step,hcall]
      split
      next result hdone =>
        refine .settle h.posted h.settled hpos hle fun n hn => ?_
        obtain ⟨hstatus,hbody⟩ := onResponse_ok hdone hn
        obtain ⟨hdelivered,hall⟩ := hc.answered resp rfl hstatus
        have hn : n = batch.length := Body.accepted.inj (hbody.symm.trans hall)
        exact ⟨by rw [hn,hbatch],hbatch ▸ hdelivered⟩
      next wait hagain =>
        refine ⟨⟨h.posted.streams,h.posted.batches,h.posted.received,h.posted.strays⟩,
          ⟨h.settled.order,h.settled.result,h.settled.counted,h.settled.dropped⟩,fun hnone => (by cases hnone),fun c' hc' => ?_⟩
        obtain rfl := Option.some.inj hc'
        exact ⟨hbatch,hc.nonempty,hc.bounded,fun i hi => (by cases hi),fun resp hresp => (by cases hresp)⟩

theorem Inv.lose (h : r.Inv) (error : String) : (r.step (.lose error)).Inv := by
  cases hcall : r.call with
  | none => simp only [Relay.step,hcall]; exact h
  | some c =>
    have hc := h.calling c hcall
    have hpos : 0 < r.edge.task.buf.length := hc.batch ▸ hc.nonempty
    have hle : r.edge.task.buf.length ≤ cfg.forwarder.batchSize := hc.batch ▸ hc.bounded
    have hsettle : (r.settle (.error (.network error))).Inv :=
      .settle h.posted h.settled hpos hle fun n hn => by cases hn
    have hbatch : r.Received c.batch := hc.batch ▸ h.settled.received
    simp only [Relay.step,hcall]
    refine ⟨hsettle.posted.of_edge rfl rfl (fun b hb => ?_) (List.Subset.refl _),
      ⟨hsettle.settled.order,hsettle.settled.result,hsettle.settled.counted,hsettle.settled.dropped⟩,hsettle.short,
      fun c' hc' => by cases hc'⟩
    split at hb
    · rcases List.mem_append.mp hb with hb | hb
      · exact .inl hb
      · exact .inr (List.mem_singleton.mp hb ▸ hbatch)
    · exact .inl hb

theorem Inv.step (hulid : cfg.ingest.ulid.RoundTrips) (h : r.Inv) (a : RelayAction) : (r.step a).Inv := by
  cases a with
  | hub a => exact h.hub a
  | offer e =>
    refine h.channel ?_
    simp only [Channel.apply]
    split
    next hsent => exact Channel.received_of_trySend hsent
    next => rfl
  | close => exact h.channel rfl
  | recv => exact h.recv
  | tick => exact h.tick
  | arrive nowMs rate => exact h.arrive hulid nowMs rate
  | stray k nowMs rate => exact h.stray hulid k nowMs rate
  | reply => exact h.reply
  | lose error => exact h.lose error

theorem Inv.spawn {hub : IngestSystem cfg.ingest} (h : hub.Streams) (hsize : 1 ≤ cfg.forwarder.batchSize)
    (capacity : ℕ) : (Relay.spawn hub capacity : Relay cfg).Inv where
  posted := ⟨h,fun _ hx => absurd hx List.not_mem_nil,fun _ hx => absurd hx List.not_mem_nil,
    fun _ hx => absurd hx List.not_mem_nil⟩
  settled := ⟨⟨rfl,fun _ hb => absurd hb List.not_mem_nil⟩,fun _ hf => absurd hf List.not_mem_nil,rfl,rfl⟩
  short _ := hsize
  calling c hc := by cases hc

theorem Inv.run (hulid : cfg.ingest.ulid.RoundTrips) (h : r.Inv) (l : List RelayAction) : (r.run l).Inv :=
  (Runs.always_of_step (fun a _ _ h => h.step hulid a) h : Runs.Always Relay.step Inv r l).last

/-- The requests of a call that were answered so far were answered with a busy hub. -/
def Retrying (cfg : ClientConfig) (attempt : ℕ) (server : ℕ → Response) : Prop :=
  ∀ i < attempt, ∃ wait, cfg.onResponse i (server i) = .again wait

/-- What the edge does is what `send_batch` does, unless the network fails. -/
structure Sends (r : Relay cfg) : Prop where
  settled : ∀ f ∈ r.edge.flushed, (∃ e, f.2 = .error (.network e)) ∨
    ∃ server, f.2 = (sendBatch cfg.client server f.1).result
  calling : ∀ c, r.call = some c → c.batch = r.edge.task.buf ∧ c.batch ≠ [] ∧
    c.attempt < cfg.client.maxAttempts ∧ ∃ server, Retrying cfg.client c.attempt server

theorem sendFrom_done {cfg : ClientConfig} {server : ℕ → Response} {result : Except ClientError ℕ}
    {attempt k left : ℕ} (hk : k < left)
    (hagain : ∀ i < k, ∃ wait, cfg.onResponse (attempt+i) (server (attempt+i)) = .again wait)
    (hdone : cfg.onResponse (attempt+k) (server (attempt+k)) = .done result) (lastStatus : ℕ)
    (lastRetryAfter : Option Duration) :
    (sendFrom cfg server attempt left lastStatus lastRetryAfter).result = result := by
  induction k generalizing attempt left lastStatus lastRetryAfter with
  | zero =>
    obtain ⟨left,rfl⟩ := Nat.exists_eq_succ_of_ne_zero (Nat.ne_of_gt hk)
    rw [Nat.add_zero] at hdone
    simp only [sendFrom,hdone]
  | succ k ih =>
    obtain ⟨left,rfl⟩ := Nat.exists_eq_succ_of_ne_zero (Nat.ne_of_gt (Nat.zero_lt_of_lt hk))
    obtain ⟨wait,hfirst⟩ := hagain 0 (Nat.succ_pos k)
    rw [Nat.add_zero] at hfirst
    simp only [sendFrom,hfirst]
    refine ih (Nat.lt_of_succ_lt_succ hk) (fun i hi => ?_) ?_ _ _
    · obtain ⟨wait,hwait⟩ := hagain (i+1) (Nat.succ_lt_succ hi)
      exact ⟨wait,by rw [Nat.add_assoc,Nat.add_comm 1 i]; exact hwait⟩
    · rw [Nat.add_assoc,Nat.add_comm 1 k]
      exact hdone

/-- A response that ends the call gives it the result of `send_batch`. -/
theorem Sends.reply {batch : List ClientEvent} {attempt : ℕ} {resp : Response}
    {result : Except ClientError ℕ} (hbatch : batch ≠ []) (hattempt : attempt < cfg.client.maxAttempts)
    {server : ℕ → Response} (hserver : Retrying cfg.client attempt server)
    (hdone : cfg.client.onResponse attempt resp = .done result) :
    result = (sendBatch cfg.client (Function.update server attempt resp) batch).result := by
  rw [sendBatch,if_neg (by simpa using hbatch)]
  refine (sendFrom_done hattempt (fun i hi => ?_) ?_ _ _).symm
  · rw [Nat.zero_add,Function.update_of_ne hi.ne]
    exact hserver i hi
  · rw [Nat.zero_add,Function.update_self]
    exact hdone

theorem Sends.settle (h : r.Sends) {result : Except ClientError ℕ}
    (hresult : (∃ e, result = .error (.network e)) ∨
      ∃ server, result = (sendBatch cfg.client server r.edge.task.buf).result) : (r.settle result).Sends where
  settled f hf := by
    rcases List.mem_append.mp hf with hf | hf
    · exact h.settled f hf
    · obtain rfl := List.mem_singleton.mp hf
      exact hresult
  calling c hc := by cases hc

theorem Sends.begin (h : ∀ f ∈ r.edge.flushed, (∃ e, f.2 = .error (.network e)) ∨
    ∃ server, f.2 = (sendBatch cfg.client server f.1).result) (hcall : r.call = none)
    (hbuf : r.edge.task.buf ≠ []) : r.begin.Sends := by
  unfold Relay.begin
  split
  next hzero =>
    refine Sends.settle ⟨h,fun c hc => by rw [hcall] at hc; cases hc⟩ (.inr ⟨fun _ => ⟨0,.text "",none,none⟩,?_⟩)
    rw [sendBatch,if_neg (by simpa using hbuf),hzero]
    simp only [sendFrom,hzero]
  next hpos =>
    refine ⟨h,fun c hc => ?_⟩
    obtain rfl := Option.some.inj hc
    exact ⟨rfl,hbuf,Nat.pos_of_ne_zero hpos,fun _ => ⟨0,.text "",none,none⟩,fun i hi => absurd hi (Nat.not_lt_zero i)⟩

theorem hears_same {cfg : IngestConfig} (s : IngestSystem cfg) (c : InFlight) (a : IngestAction) :
    (c.hears s a).batch = c.batch ∧ (c.hears s a).attempt = c.attempt := by
  unfold InFlight.hears
  split
  · split
    · split <;> exact ⟨rfl,rfl⟩
    · exact ⟨rfl,rfl⟩
  · exact ⟨rfl,rfl⟩

theorem deliver_same (r : Relay cfg) (batch : List ClientEvent) (nowMs : Int64) (rate : Option Duration) :
    (r.deliver batch nowMs rate).1.edge = r.edge ∧ (r.deliver batch nowMs rate).1.call = r.call := by
  unfold deliver
  dsimp only
  split <;> exact ⟨rfl,rfl⟩

/-- The edge's buffer and what it flushed stay, and so do the batch and the attempt of its call. -/
theorem Sends.of_same (h : r.Sends) (hflushed : r'.edge.flushed = r.edge.flushed)
    (hbuf : r'.edge.task.buf = r.edge.task.buf) (hcall : ∀ c', r'.call = some c' →
      ∃ c, r.call = some c ∧ c'.batch = c.batch ∧ c'.attempt = c.attempt) : r'.Sends where
  settled f hf := h.settled f (hflushed ▸ hf)
  calling c' hc' := by
    obtain ⟨c,hc,hbatch,hattempt⟩ := hcall c' hc'
    rw [hbuf,hbatch,hattempt]
    exact h.calling c hc

theorem Sends.step (h : r.Sends) (a : RelayAction) : (r.step a).Sends := by
  have hsame : ∀ c', r.call = some c' → ∃ c, r.call = some c ∧ c'.batch = c.batch ∧ c'.attempt = c.attempt :=
    fun c hc => ⟨c,hc,rfl,rfl⟩
  cases a with
  | hub a =>
    refine h.of_same rfl rfl fun c' hc' => ?_
    obtain ⟨c,hc,rfl⟩ := Option.map_eq_some_iff.mp hc'
    exact ⟨c,hc,hears_same r.hub c a⟩
  | offer e => exact h.of_same rfl rfl hsame
  | close => exact h.of_same rfl rfl hsame
  | recv =>
    simp only [Relay.step]
    split
    · exact h
    next hidle =>
      obtain ⟨hcall,_⟩ : r.call = none ∧ r.edge.exited = false := by simpa using hidle
      split
      next e rest hqueue =>
        split
        · refine .begin h.settled hcall fun hnil => ?_
          simp [BatchTask.accept,Forwarder.run] at hnil
        · exact ⟨h.settled,fun c hc => (by rw [hcall] at hc; cases hc)⟩
      next =>
        split
        · split
          · exact h.of_same rfl rfl hsame
          next hne => exact .begin h.settled hcall (by simpa using hne)
        · exact h
  | tick =>
    simp only [Relay.step]
    split
    · exact h
    next hidle =>
      obtain ⟨⟨hcall,_⟩,hne⟩ : (r.call = none ∧ r.edge.exited = false) ∧ r.edge.task.buf ≠ [] := by
        simpa using hidle
      exact .begin h.settled hcall hne
  | arrive nowMs rate =>
    simp only [Relay.step]
    split
    next batch attempt hcall =>
      obtain ⟨hedge,_⟩ := r.deliver_same batch nowMs rate
      refine h.of_same (congrArg _ hedge) (congrArg (fun l => l.task.buf) hedge) fun c' hc' => ?_
      obtain rfl := Option.some.inj hc'
      exact ⟨_,hcall,rfl,rfl⟩
    · exact h
  | stray k nowMs rate =>
    simp only [Relay.step]
    split
    · exact h
    next batch _ =>
      obtain ⟨hedge,hcall⟩ := r.deliver_same batch nowMs rate
      exact h.of_same (congrArg _ hedge) (congrArg (fun l => l.task.buf) hedge) fun c' hc' =>
        hsame c' (hcall ▸ hc')
  | reply =>
    simp only [Relay.step]
    split
    next batch attempt resp hcall =>
      obtain ⟨hbatch,hne,hattempt,server,hserver⟩ := h.calling _ hcall
      split
      next result hdone =>
        exact h.settle (.inr ⟨_,hbatch ▸ Sends.reply hne hattempt hserver hdone⟩)
      next wait hagain =>
        refine ⟨h.settled,fun c' hc' => ?_⟩
        obtain rfl := Option.some.inj hc'
        refine ⟨hbatch,hne,(onResponse_again hagain).2.1,Function.update server attempt resp,fun i hi => ?_⟩
        rcases Nat.lt_succ_iff_lt_or_eq.mp hi with hi | rfl
        · rw [Function.update_of_ne hi.ne]
          exact hserver i hi
        · rw [Function.update_self]
          exact ⟨wait,hagain⟩
    · exact h
  | lose error =>
    simp only [Relay.step]
    split
    · exact h
    · have hsettle : (r.settle (.error (.network error))).Sends := h.settle (.inl ⟨error,rfl⟩)
      exact ⟨hsettle.settled,hsettle.calling⟩

end Relay

/-- What the hub made of an event of the edge. The links are lost on the way. -/
structure Forwarded (peerId : String) (e p : Event) : Prop where
  eventId : p.eventId = e.eventId
  sourceId : p.sourceId = prefixed peerId e.sourceId
  kind : p.kind = e.kind
  tsMsUtc : p.tsMsUtc = e.tsMsUtc
  semantic : p.semantic = e.semantic
  links : p.links = none
  traceId : ∀ t, e.traceId = some t → p.traceId = some t
  producerId : p.producerId = e.producerId

/-- The event has one row in the hub's log, with what the hub made of it. -/
def StoredOnce (store : ColdStore) (peerId : String) (e : Event) : Prop :=
  ∃ p, Forwarded peerId e p ∧ p.toRow ∈ store.events.rows ∧
    ∀ row ∈ store.events.rows, row.eventId = e.eventId → row = p.toRow

theorem forwarded_of_keeps {peerId : String} {e p : Event} {x : Submission}
    (hx : x.envelope.event = (toClientEvent peerId e).toIngest) (h : Keeps x p) : Forwarded peerId e p := by
  have hkeeps := h
  obtain ⟨hid,hsource,hkind,hts,hsemantic,hlinks,htrace,hproducer⟩ := hkeeps
  rw [hx,toIngest_toClientEvent] at hid hsource hkind hts hsemantic hlinks htrace hproducer
  exact ⟨hid _ rfl,hsource,hkind,hts,hsemantic,hlinks,htrace,hproducer⟩

namespace Relay

variable {cfg : RelayConfig} {r : Relay cfg}

/-- The ids of the edge's events. -/
def ids (r : Relay cfg) : List Ulid := r.edge.rx.received.map (·.eventId)

/-- The ids are distinct, and none of them is on an event of another producer. -/
structure OwnIds (r : Relay cfg) : Prop where
  nodup : r.ids.Nodup
  own : ∀ z ∈ r.hub.tx.received.zip r.hub.pushed, z.2.eventId ∈ r.ids →
    ∃ x ∈ r.posts, z.1.batch = some x.1

theorem mem_sent_of_delivered (h : r.Posted) {batch : List ClientEvent} (hbatch : r.Delivered batch)
    {c : ClientEvent} (hc : c ∈ batch) : ∃ x ∈ r.hub.tx.sent, x.envelope.event = c.toIngest := by
  obtain ⟨i,b,hmem,hb,hsent⟩ := hbatch
  obtain ⟨b',hb',hevents⟩ := h.batches _ hmem
  obtain rfl := Option.some.inj (hb'.symm.trans hb)
  have hfrom := h.streams.ordered.batch i b' hb
  rw [hsent,List.take_length,hevents] at hfrom
  have henvelope : b'.scope.envelope c.toIngest ∈ IngestSystem.fromBatch i r.hub.tx.sent := by
    rw [hfrom]
    exact List.mem_map_of_mem (List.mem_map_of_mem hc)
  obtain ⟨x,hx,heq⟩ := List.mem_map.mp henvelope
  exact ⟨x,(List.mem_filter.mp hx).1,by rw [heq]; rfl⟩

/-- An event from a request of the edge is what the hub made of an event that the edge received. -/
theorem origin_of_posted (h : r.Posted) {x : Submission} {p : Event} (hx : x ∈ r.hub.tx.received)
    (hkeeps : Keeps x p) (hposted : ∃ post ∈ r.posts, x.batch = some post.1) :
    ∃ e ∈ r.edge.rx.received, Forwarded cfg.forwarder.peerId e p := by
  obtain ⟨post,hpost,hbatch⟩ := hposted
  have hsent : x ∈ r.hub.tx.sent := List.mem_append_left _ hx
  obtain ⟨b,hb,henvelope⟩ := h.streams.ordered.mem_batch hsent hbatch
  obtain ⟨b',hb',hevents⟩ := h.batches post hpost
  obtain rfl := Option.some.inj (hb'.symm.trans hb)
  rw [hevents,List.map_map] at henvelope
  obtain ⟨c,hc,hcx⟩ := List.mem_map.mp henvelope
  obtain ⟨e,he,rfl⟩ := List.mem_map.mp (h.received post hpost hc)
  have hx : x.envelope.event = (toClientEvent cfg.forwarder.peerId e).toIngest := by
    rw [← hcx]
    rfl
  exact ⟨e,he,forwarded_of_keeps hx hkeeps⟩

/-- An event of the hub has an envelope. -/
theorem made_of_pushed (h : r.Posted) {p : Event} (hp : p ∈ r.hub.pushed) :
    ∃ z ∈ r.hub.tx.received.zip r.hub.pushed, z.2 = p ∧ z.1 ∈ r.hub.tx.received ∧ Keeps z.1 p := by
  have hzip := hp
  rw [← List.map_snd_zip h.streams.keeps.length_eq.symm.le] at hzip
  obtain ⟨z,hz,rfl⟩ := List.mem_map.mp hzip
  exact ⟨z,hz,rfl,(List.of_mem_zip hz).1,(List.forall₂_iff_zip.mp h.streams.keeps).2 hz⟩

/-- An event under an id of the edge is what the hub made of the edge's event. -/
theorem forwarded_of_pushed (h : r.Posted) (hown : r.OwnIds) {p e : Event} (hp : p ∈ r.hub.pushed)
    (he : e ∈ r.edge.rx.received) (hid : p.eventId = e.eventId) : Forwarded cfg.forwarder.peerId e p := by
  obtain ⟨z,hz,rfl,hreceived,hkeeps⟩ := made_of_pushed h hp
  obtain ⟨e',he',hforwarded⟩ := origin_of_posted h hreceived hkeeps
    (hown.own z hz (hid ▸ List.mem_map_of_mem he))
  obtain rfl : e' = e := List.inj_on_of_nodup_map hown.nodup he' he (hforwarded.eventId.symm.trans hid)
  exact hforwarded

/-- An id of the edge that the hub has pushed has one row. -/
theorem storedOnce_of_pushed (h : r.Posted) (hown : r.OwnIds) {batches : List (List Event)}
    (hbatches : batches.flatten = r.hub.pushed) {p e : Event} (hp : p ∈ r.hub.pushed)
    (he : e ∈ r.edge.rx.received) (hid : p.eventId = e.eventId) :
    StoredOnce (ColdStore.openInMemory.appendAll batches) cfg.forwarder.peerId e := by
  have hfind : ∃ q, batches.flatten.find? (fun q => q.eventId = e.eventId) = some q := by
    rw [← Option.isSome_iff_exists,List.find?_isSome]
    exact ⟨p,hbatches ▸ hp,by simpa using hid⟩
  obtain ⟨q,hq⟩ := hfind
  have hqid : q.eventId = e.eventId := by simpa using List.find?_some hq
  have hforwarded := forwarded_of_pushed h hown (hbatches ▸ List.mem_of_find?_eq_some hq) he hqid
  refine ⟨q,hforwarded,ColdStore.mem_appendAll_openInMemory.mpr ⟨q,?_,rfl⟩,fun row hrow hrowid => ?_⟩
  · rw [show q.toRow.eventId = e.eventId from hqid]
    exact hq
  · obtain ⟨q',hq',rfl⟩ := ColdStore.mem_appendAll_openInMemory.mp hrow
    rw [hrowid,hq] at hq'
    rw [Option.some.inj hq']

/-- The events of the batches that the hub accepted. -/
def accepted (r : Relay cfg) : List ClientEvent :=
  r.edge.flushed.flatMap fun f => match f.2 with
    | .ok _ => f.1
    | .error _ => []

theorem length_accepted (h : r.Settled) : r.accepted.length = r.edge.task.metrics.eventsForwarded := by
  rw [h.counted,accepted,List.length_flatMap]
  refine congrArg List.sum (List.map_congr_left fun f hf => ?_)
  cases hresult : f.2 with
  | ok n => exact (h.result f hf n hresult).1.symm
  | error e => rfl

/-- The accepted events are among those received, once each. -/
theorem accepted_eq (h : r.Settled) : ∃ events : List Event, events.Sublist r.edge.rx.received ∧
    r.accepted = events.map (toClientEvent cfg.forwarder.peerId) := by
  have horder : r.edge.flushed.flatMap Prod.fst ++ r.edge.task.buf =
      r.edge.rx.received.map (toClientEvent cfg.forwarder.peerId) := h.order.order
  have hflushed : r.accepted.Sublist (r.edge.flushed.flatMap Prod.fst) := by
    refine List.Sublist.flatMap_right _ fun f _ => ?_
    split
    · exact List.Sublist.refl _
    · exact List.nil_sublist _
  exact List.sublist_map_iff.mp (horder ▸ hflushed.trans (List.sublist_append_left _ _))

/-- With nothing dropped and nothing in the buffer all that was received was accepted. -/
theorem accepted_all (h : r.Settled) (hdropped : r.edge.task.metrics.eventsDropped = 0)
    (hbuf : r.edge.task.buf = []) :
    r.accepted = r.edge.rx.received.map (toClientEvent cfg.forwarder.peerId) := by
  have horder : r.edge.flushed.flatMap Prod.fst ++ r.edge.task.buf =
      r.edge.rx.received.map (toClientEvent cfg.forwarder.peerId) := h.order.order
  have hsum := h.dropped
  rw [hbuf,List.append_nil] at horder
  rw [hdropped,horder,List.length_map,Nat.add_zero] at hsum
  obtain ⟨events,hsub,heq⟩ := accepted_eq h
  rw [heq,hsub.eq_of_length]
  rw [← hsum,← length_accepted h,heq,List.length_map]

/-- How many rows of the log have an id of the edge. -/
def rowsOf (r : Relay cfg) (store : ColdStore) : ℕ :=
  (store.events.rows.filter fun row => r.ids.contains row.eventId).length

/-- The hub has pushed each accepted event. -/
theorem accepted_pushed (h : r.Inv) (hqueue : r.hub.tx.queue = []) {e : Event}
    (haccepted : toClientEvent cfg.forwarder.peerId e ∈ r.accepted) :
    ∃ p ∈ r.hub.pushed, p.eventId = e.eventId := by
  obtain ⟨f,hf,hmem⟩ := List.mem_flatMap.mp haccepted
  cases hresult : f.2 with
  | error error =>
    rw [hresult] at hmem
    cases hmem
  | ok n =>
    rw [hresult] at hmem
    obtain ⟨x,hx,hevent⟩ := mem_sent_of_delivered h.posted (h.settled.result f hf n hresult).2 hmem
    have hkeeps := h.posted.streams.keeps_sent hqueue
    have hzip := hx
    rw [← List.map_fst_zip hkeeps.length_eq.le] at hzip
    obtain ⟨z,hz,rfl⟩ := List.mem_map.mp hzip
    exact ⟨z.2,(List.of_mem_zip hz).2,
      (forwarded_of_keeps hevent ((List.forall₂_iff_zip.mp hkeeps).2 hz)).eventId⟩

/-- Each accepted event has its row. -/
theorem accepted_storedOnce (h : r.Inv) (hown : r.OwnIds) (hqueue : r.hub.tx.queue = [])
    {batches : List (List Event)} (hbatches : batches.flatten = r.hub.pushed) {e : Event}
    (he : e ∈ r.edge.rx.received) (haccepted : toClientEvent cfg.forwarder.peerId e ∈ r.accepted) :
    StoredOnce (ColdStore.openInMemory.appendAll batches) cfg.forwarder.peerId e := by
  obtain ⟨p,hp,hid⟩ := accepted_pushed h hqueue haccepted
  exact storedOnce_of_pushed h.posted hown hbatches hp he hid

theorem rowsOf_bounds (h : r.Inv) (hown : r.OwnIds) (hqueue : r.hub.tx.queue = [])
    {batches : List (List Event)} (hbatches : batches.flatten = r.hub.pushed) :
    r.edge.task.metrics.eventsForwarded ≤ r.rowsOf (ColdStore.openInMemory.appendAll batches) ∧
      r.rowsOf (ColdStore.openInMemory.appendAll batches) ≤ r.edge.rx.received.length := by
  generalize hstore : ColdStore.openInMemory.appendAll batches = store
  generalize hrows : (store.events.rows.filter fun row => r.ids.contains row.eventId) = rows
  have hlength : r.rowsOf store = (rows.map (·.eventId)).length := by rw [List.length_map,← hrows]; rfl
  have hnodup : (rows.map (·.eventId)).Nodup :=
    hrows ▸ store.events.nodup.sublist (List.filter_sublist.map _)
  rw [hlength]
  constructor
  · obtain ⟨events,hsub,heq⟩ := accepted_eq h.settled
    have hcount : r.edge.task.metrics.eventsForwarded = (events.map (·.eventId)).length := by
      rw [← length_accepted h.settled,heq,List.length_map,List.length_map]
    rw [hcount]
    refine (hown.nodup.sublist (hsub.map _)).length_le_of_subset fun id hid => ?_
    obtain ⟨e,he,rfl⟩ := List.mem_map.mp hid
    obtain ⟨p,hp,hrow,_⟩ := accepted_storedOnce h hown hqueue hbatches (hsub.subset he)
      (by rw [heq]; exact List.mem_map_of_mem he)
    rw [hstore] at hrow
    rw [← hp.eventId]
    refine List.mem_map.mpr ⟨p.toRow,?_,rfl⟩
    rw [← hrows]
    refine List.mem_filter.mpr ⟨hrow,List.contains_iff_mem.mpr ?_⟩
    rw [show p.toRow.eventId = e.eventId from hp.eventId]
    exact List.mem_map_of_mem (hsub.subset he)
  · have hle : (rows.map (·.eventId)).length ≤ r.ids.length := by
      refine hnodup.length_le_of_subset fun id hid => ?_
      obtain ⟨row,hrow,rfl⟩ := List.mem_map.mp hid
      rw [← hrows] at hrow
      exact List.contains_iff_mem.mp (List.mem_filter.mp hrow).2
    exact hle.trans_eq (List.length_map _)

theorem Sends.run (h : r.Sends) (l : List RelayAction) : (r.run l).Sends :=
  (Runs.always_of_step (fun a _ _ h => h.step a) h : Runs.Always Relay.step Sends r l).last

/-- `crockfordText`, with a check of the digits that computes. -/
def computedText : UlidText where
  toText := crockfordText.toText
  ofText s :=
    let digits := s.toList.map Char.toUpper
    if digits.length = 26 && digits.all crockford.contains then some (Fin.ofNat (2^128) (ofBase32 digits))
    else none

theorem computedText_eq : computedText = crockfordText := by
  unfold computedText crockfordText
  congr 1
  funext s
  simp [List.all_eq_true]

/-- Batches of two, and a hub whose bus holds one event. -/
def narrowBus : RelayConfig where
  ingest := {
    ulid := computedText
    auth := ⟨fun t => if t = "t" then some ⟨"edge",fun _ => true,fun _ => true,none⟩ else none⟩
    fromSlice := fun _ => .error "EOF while parsing a value at line 1 column 0"
    busDepth := 1 }
  forwarder := { batchSize := 2 }
  client := {}
  bearer := "t"

/-- The second event of the batch finds the bus full, and the batch is posted again. -/
def resent : Relay narrowBus :=
  (spawn (IngestSystem.spawn (.new .empty (some (.new 4)) none none) []) 4).run
    [.offer (.required 7 "temp" "temperature" 5 .null),.offer (.required 8 "temp" "temperature" 6 .null),
      .recv,.recv,.arrive 0 none,.hub (.send 0),.hub (.send 0),.reply,.hub (.normalize 0 0 0 0),
      .arrive 0 none,.hub (.send 1),.hub (.normalize 0 0 0 0),.hub (.send 1),.reply,.hub (.normalize 0 0 0 0)]

theorem resent_ownIds : resent.OwnIds where
  nodup := by decide +kernel
  own z hz _ := by
    have hbatch : ∀ z ∈ resent.hub.tx.received.zip resent.hub.pushed, z.1.batch = some 0 ∨ z.1.batch = some 1 := by
      decide +kernel
    have hposts : resent.posts.map Prod.fst = [0,1] := by decide +kernel
    have hmem : ∀ i ∈ [0,1], ∃ x ∈ resent.posts, some i = some x.1 := fun i hi => by
      rw [← hposts] at hi
      obtain ⟨x,hx,rfl⟩ := List.mem_map.mp hi
      exact ⟨x,hx,rfl⟩
    rcases hbatch z hz with h | h
    · rw [h]; exact hmem 0 (by decide)
    · rw [h]; exact hmem 1 (by decide)

end Relay

end Percept
