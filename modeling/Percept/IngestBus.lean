import Percept.Lib.Runs
import Percept.Mqtt
import Percept.Sequence
import Percept.WebSocket

/-! All producers at once. HTTP requests and WebSocket messages that pass their checks become
batches with a sending loop each, brokers publish, and the normalizer takes from the same bus;
one step is one `try_send` of one of them, or one turn of one of the other tasks. -/
namespace Percept

structure IngestConfig where
  ulid : UlidText
  auth : Auth
  hardCapBytes : ℕ := 65536
  softCapBytes : ℕ := 16384
  fromSlice : List UInt8 → Except String Json
  busDepth : ℕ := 4096
  hotRing : HotRingConfig := {}

/-- The answer of the rate limiter to the next `check`. -/
def TokenScope.withRate (scope : TokenScope) (rate : Option Duration) : TokenScope :=
  { scope with limiter := scope.limiter.map fun _ => ⟨rate⟩ }

/-- The token of an `Authorization` header. -/
def bearer (authorization : Option String) : String :=
  (authorization.bind (stripPrefix "Bearer ")).getD ""

/-- A batch on its way to the bus: every event of it passed the checks of the scope that its
token has. -/
structure Batch (cfg : IngestConfig) where
  token : String
  scope : TokenScope
  events : List IngestEvent
  nowMs : Int64
  session : Option ℕ
  sent : ℕ
  stopped : Bool
  known : ∃ limiter, cfg.auth.byToken token = some { scope with limiter }
  checked : ∀ e ∈ events, scope.allows e.sourceId e.kind = true ∧
    approxSemanticSize e.semantic ≤ cfg.hardCapBytes

/-- A WebSocket session with the batch it sent last. -/
structure Session (cfg : IngestConfig) where
  token : String
  scope : TokenScope
  batch : Option ℕ
  ended : Bool
  known : cfg.auth.byToken token = some scope

/-- An envelope on the bus, with the number of its batch; a broker's has none. -/
structure Submission where
  batch : Option ℕ
  envelope : IngestEnvelope

/-- `pushed` lists the events that the normalizer made of what it received. -/
structure IngestSystem (cfg : IngestConfig) where
  batches : List (Batch cfg)
  sessions : List (Session cfg)
  brokers : List MqttSubscriber
  tx : Channel Submission
  normalizer : Normalizer cfg.hotRing
  pushed : List Event

inductive IngestAction
  | http (authorization : Option String) (body : Except String Json) (nowMs : Int64)
      (rate : Option Duration)
  | wsOpen (token : String)
  | wsMessage (session : ℕ) (body : Except String Json) (nowMs : Int64) (rate : Option Duration)
  | wsClose (session : ℕ)
  | send (batch : ℕ)
  | poll (broker : ℕ) (polled : Polled) (nowMs : Int64)
  | normalize (eventId traceId : Ulid) (ingestMs pushMs : Int64)
  | consume (takes : Consumer → ℕ)
  | close

/-- A normalizer that has handled nothing yet. -/
def Normalizer.new {config : HotRingConfig} (schemas : SchemaIndex) (coldTx : Option (Channel Event))
    (embedSink : Option EmbedSink) (forwardTx : Option (Channel Event)) : Normalizer config :=
  ⟨.new,.new,schemas,coldTx,embedSink,forwardTx,fun _ => 0⟩

theorem byToken_bearer {auth : Auth} {authorization : Option String} {scope : TokenScope}
    (h : authenticate auth authorization = .ok scope) :
    auth.byToken (bearer authorization) = some scope := by
  unfold authenticate at h
  unfold bearer
  split at h
  · cases h
  next token htoken =>
    split at h
    · cases h
    next scope' hscope =>
      rw [htoken,Option.getD_some,hscope,Except.ok.inj h]

section

variable {s : HttpState} {scope : TokenScope} {body : Except String Json} {nowMs : Int64}
  {events : List IngestEvent}

/-- What gets past the checks of a message. -/
theorem wsAdmit_ok (h : (wsAdmit s scope body nowMs).1 = .ok events) :
    parsePayload s.ulid body = .ok events ∧ ∀ e ∈ events,
      scope.allows e.sourceId e.kind = true ∧ approxSemanticSize e.semantic ≤ s.hardCapBytes := by
  unfold wsAdmit at h
  split at h
  · cases h
  · cases h
  next events' hne hparse =>
    split at h
    · cases h
    next m hcheck =>
      split at h
      · cases h
      · obtain rfl := Except.ok.inj h
        have hnone : (checkEvents s scope nowMs events' s.metrics).1 = none := by
          rw [checkEvents_eq,hcheck]
        exact ⟨hparse,checkEvents_none_iff.mp hnone⟩

theorem httpAdmit_ok (h : (httpAdmit s scope body nowMs).1 = .ok events) :
    parsePayload s.ulid body = .ok events ∧ ∀ e ∈ events,
      scope.allows e.sourceId e.kind = true ∧ approxSemanticSize e.semantic ≤ s.hardCapBytes := by
  have hverdict := (admit_agrees s scope body nowMs).1
  rw [h] at hverdict
  cases hws : (wsAdmit s scope body nowMs).1 with
  | error frame =>
    rw [hws] at hverdict
    exact hverdict.elim
  | ok events' =>
    rw [hws] at hverdict
    obtain rfl : events = events' := hverdict
    exact wsAdmit_ok hws

end

namespace IngestSystem

variable {cfg : IngestConfig}

def spawn (normalizer : Normalizer cfg.hotRing) (brokers : List MqttSubscriber) : IngestSystem cfg :=
  ⟨[],[],brokers,.new cfg.busDepth,normalizer,[]⟩

/-- What a request sees of the system. -/
def view (s : IngestSystem cfg) : HttpState where
  ulid := cfg.ulid
  auth := cfg.auth
  hardCapBytes := cfg.hardCapBytes
  softCapBytes := cfg.softCapBytes
  metrics := s.normalizer.metrics
  tx := s.tx.map fun x => ⟨false,x.envelope⟩

def setMetrics (s : IngestSystem cfg) (metrics : Metrics) : IngestSystem cfg :=
  { s with normalizer := { s.normalizer with metrics } }

/-- A request up to its sending loop. -/
def http (s : IngestSystem cfg) (authorization : Option String) (body : Except String Json)
    (nowMs : Int64) (rate : Option Duration) : IngestSystem cfg :=
  match hauth : authenticate cfg.auth authorization with
  | .error _ => s
  | .ok scope =>
    let scope' := scope.withRate rate
    let s := s.setMetrics (httpAdmit s.view scope' body nowMs).2
    match haccept : (httpAdmit s.view scope' body nowMs).1 with
    | .error _ => s
    | .ok events => { s with batches := s.batches ++ [{
        token := bearer authorization
        scope := scope'
        events, nowMs
        session := none
        sent := 0
        stopped := false
        known := ⟨scope.limiter,byToken_bearer hauth⟩
        checked := (httpAdmit_ok haccept).2 }] }

def openSession (s : IngestSystem cfg) (token : String) : IngestSystem cfg :=
  match hopen : wsOpen s.view token with
  | none => s
  | some scope => { s with sessions := s.sessions ++ [⟨token,scope,none,false,hopen⟩] }

/-- A session reads its next message when the sending loop of the last one is over. -/
def idle (s : IngestSystem cfg) (x : Session cfg) : Bool :=
  match x.batch.bind fun i => s.batches[i]? with
  | none => true
  | some b => b.stopped || b.sent = b.events.length

/-- A message of a session up to its sending loop. -/
def message (s : IngestSystem cfg) (i : ℕ) (body : Except String Json) (nowMs : Int64)
    (rate : Option Duration) : IngestSystem cfg :=
  match s.sessions[i]? with
  | none => s
  | some x =>
    if x.ended || !s.idle x then s
    else
      let scope := x.scope.withRate rate
      let s := s.setMetrics (wsAdmit s.view scope body nowMs).2
      match haccept : (wsAdmit s.view scope body nowMs).1 with
      | .error _ => s
      | .ok events => { s with
          sessions := s.sessions.set i { x with batch := some s.batches.length }
          batches := s.batches ++ [{
            token := x.token
            scope := scope
            events, nowMs
            session := some i
            sent := 0
            stopped := false
            known := ⟨x.scope.limiter,x.known⟩
            checked := (wsAdmit_ok haccept).2 }] }

def endSession (s : IngestSystem cfg) (i : ℕ) : IngestSystem cfg :=
  { s with sessions := s.sessions.modify i fun x => { x with ended := true } }

/-- One `try_send` of a sending loop. A full channel ends the loop, a closed one the session. -/
def send (s : IngestSystem cfg) (i : ℕ) : IngestSystem cfg :=
  match s.batches[i]? with
  | none => s
  | some b =>
    if b.stopped then s
    else match b.events[b.sent]? with
      | none => s
      | some e => match s.tx.trySend ⟨some i,b.scope.envelope e⟩ with
        | .ok tx => { s with tx, batches := s.batches.set i { b with sent := b.sent+1 } }
        | .error failure =>
          let s := { s with batches := s.batches.set i { b with stopped := true } }
          match failure with
          | .full => s.setMetrics ((s.normalizer.metrics.incShed ShedReason.busFull.asStr
              (some b.scope.name)).incSourceError e.sourceId ShedReason.busFull.asStr b.nowMs)
          | .closed => match b.session with
            | none => s
            | some j => s.endSession j

def poll (s : IngestSystem cfg) (i : ℕ) (polled : Polled) (nowMs : Int64) : IngestSystem cfg :=
  match s.brokers[i]? with
  | none => s
  | some m =>
    let (m,tx,metrics) := m.drive cfg.fromSlice (Submission.mk none) polled nowMs s.tx
      s.normalizer.metrics
    { s.setMetrics metrics with tx, brokers := s.brokers.set i m }

/-- The normalizer's loop body on the oldest envelope of the bus. -/
def normalizeNext (s : IngestSystem cfg) (eventId traceId : Ulid) (ingestMs pushMs : Int64) :
    IngestSystem cfg :=
  match s.tx.queue with
  | [] => s
  | x::_ =>
    let (e,normalizer) := s.normalizer.step cfg.ulid ⟨x.envelope,eventId,traceId,ingestMs,pushMs⟩
    { s with tx := s.tx.recv, normalizer, pushed := s.pushed ++ [e] }

/-- A step; one that is not possible now changes nothing. -/
def step (s : IngestSystem cfg) : IngestAction → IngestSystem cfg
  | .http authorization body nowMs rate => s.http authorization body nowMs rate
  | .wsOpen token => s.openSession token
  | .wsMessage i body nowMs rate => s.message i body nowMs rate
  | .wsClose i => s.endSession i
  | .send i => s.send i
  | .poll i polled nowMs => s.poll i polled nowMs
  | .normalize eventId traceId ingestMs pushMs => s.normalizeNext eventId traceId ingestMs pushMs
  | .consume takes => { s with normalizer := s.normalizer.drain takes }
  | .close => { s with tx := s.tx.close }

def run (s : IngestSystem cfg) (l : List IngestAction) : IngestSystem cfg := l.foldl step s

/-- Everything that only the normalizer's turn changes is as it was. -/
structure Frame (s s' : IngestSystem cfg) : Prop where
  received : s'.tx.received = s.tx.received
  pushed : s'.pushed = s.pushed
  hotRings : s'.normalizer.hotRings = s.normalizer.hotRings
  seqBySource : s'.normalizer.seqBySource = s.normalizer.seqBySource

/-- The ways a step can touch the batches, the bus and the normalizer. -/
inductive Effect (s : IngestSystem cfg) (a : IngestAction) (s' : IngestSystem cfg) : Prop
  | quiet (frame : Frame s s') (batches : s'.batches = s.batches) (sent : s'.tx.sent = s.tx.sent)
  | accept (b : Batch cfg) (frame : Frame s s') (batches : s'.batches = s.batches ++ [b])
      (sent : s'.tx.sent = s.tx.sent) (fresh : b.sent = 0)
  | stop (i : ℕ) (b : Batch cfg) (frame : Frame s s') (found : s.batches[i]? = some b)
      (batches : s'.batches = s.batches.set i { b with stopped := true })
      (sent : s'.tx.sent = s.tx.sent)
  | enqueue (i : ℕ) (b : Batch cfg) (e : IngestEvent) (frame : Frame s s')
      (found : s.batches[i]? = some b) (next : b.events[b.sent]? = some e)
      (batches : s'.batches = s.batches.set i { b with sent := b.sent+1 })
      (sent : s'.tx.sent = s.tx.sent ++ [⟨some i,b.scope.envelope e⟩])
  | publish (i : ℕ) (m : MqttSubscriber) (topic : String) (payload : List UInt8) (nowMs : Int64)
      (e : IngestEvent) (frame : Frame s s') (action : a = .poll i (.publish topic payload) nowMs)
      (found : s.brokers[i]? = some m) (routed : m.routed cfg.fromSlice topic payload nowMs = .ok e)
      (room : s.tx.hasRoom = true) (batches : s'.batches = s.batches)
      (sent : s'.tx.sent = s.tx.sent ++ [⟨none,m.envelope e⟩])
  | normalize (x : Submission) (rest : List Submission) (arrival : Arrival)
      (queue : s.tx.queue = x::rest) (envelope : arrival.envelope = x.envelope)
      (received : s'.tx.received = s.tx.received ++ [x])
      (pushed : s'.pushed = s.pushed ++ [(s.normalizer.step cfg.ulid arrival).1])
      (normalizer : s'.normalizer = (s.normalizer.step cfg.ulid arrival).2)
      (batches : s'.batches = s.batches) (sent : s'.tx.sent = s.tx.sent)

theorem http_effect (s : IngestSystem cfg) (authorization : Option String)
    (body : Except String Json) (nowMs : Int64) (rate : Option Duration) :
    Effect s (.http authorization body nowMs rate) (s.http authorization body nowMs rate) := by
  unfold http
  split
  · exact .quiet ⟨rfl,rfl,rfl,rfl⟩ rfl rfl
  · dsimp only
    split
    · exact .quiet ⟨rfl,rfl,rfl,rfl⟩ rfl rfl
    · exact .accept _ ⟨rfl,rfl,rfl,rfl⟩ rfl rfl rfl

theorem message_effect (s : IngestSystem cfg) (i : ℕ) (body : Except String Json) (nowMs : Int64)
    (rate : Option Duration) : Effect s (.wsMessage i body nowMs rate) (s.message i body nowMs rate) := by
  unfold message
  split
  · exact .quiet ⟨rfl,rfl,rfl,rfl⟩ rfl rfl
  · split
    · exact .quiet ⟨rfl,rfl,rfl,rfl⟩ rfl rfl
    · dsimp only
      split
      · exact .quiet ⟨rfl,rfl,rfl,rfl⟩ rfl rfl
      · exact .accept _ ⟨rfl,rfl,rfl,rfl⟩ rfl rfl rfl

theorem send_effect (s : IngestSystem cfg) (i : ℕ) : Effect s (.send i) (s.send i) := by
  unfold send
  split
  · exact .quiet ⟨rfl,rfl,rfl,rfl⟩ rfl rfl
  next b hb =>
    split
    · exact .quiet ⟨rfl,rfl,rfl,rfl⟩ rfl rfl
    · split
      · exact .quiet ⟨rfl,rfl,rfl,rfl⟩ rfl rfl
      next e he =>
        split
        next tx htx =>
          exact .enqueue i b e ⟨Channel.received_of_trySend htx,rfl,rfl,rfl⟩ hb he rfl
            (Channel.sent_of_trySend htx)
        next failure _ =>
          cases failure with
          | full => exact .stop i b ⟨rfl,rfl,rfl,rfl⟩ hb rfl rfl
          | closed =>
            dsimp only
            split
            · exact .stop i b ⟨rfl,rfl,rfl,rfl⟩ hb rfl rfl
            · exact .stop i b ⟨rfl,rfl,rfl,rfl⟩ hb rfl rfl

/-- A publish that is routed is offered to the bus. -/
theorem poll_routed {s : IngestSystem cfg} {i : ℕ} {m : MqttSubscriber} {topic : String}
    {payload : List UInt8} {nowMs : Int64} {e : IngestEvent} (hm : s.brokers[i]? = some m)
    (hrouted : m.routed cfg.fromSlice topic payload nowMs = .ok e) :
    (s.poll i (.publish topic payload) nowMs).tx = s.tx.apply (.trySend ⟨none,m.envelope e⟩) := by
  simp only [poll,hm,MqttSubscriber.drive,hrouted,offer_fst]

/-- A publish that is not routed leaves the bus alone. -/
theorem poll_unrouted {s : IngestSystem cfg} {i : ℕ} {m : MqttSubscriber} {topic : String}
    {payload : List UInt8} {nowMs : Int64} {e : RouteError} (hm : s.brokers[i]? = some m)
    (hrouted : m.routed cfg.fromSlice topic payload nowMs = .error e) :
    (s.poll i (.publish topic payload) nowMs).tx = s.tx := by
  simp only [poll,hm,MqttSubscriber.drive,hrouted]

theorem poll_frame (s : IngestSystem cfg) (i : ℕ) (polled : Polled) (nowMs : Int64) :
    (s.poll i polled nowMs).batches = s.batches ∧ (s.poll i polled nowMs).pushed = s.pushed ∧
      (s.poll i polled nowMs).normalizer.hotRings = s.normalizer.hotRings ∧
      (s.poll i polled nowMs).normalizer.seqBySource = s.normalizer.seqBySource := by
  unfold poll
  split <;> exact ⟨rfl,rfl,rfl,rfl⟩

theorem poll_effect (s : IngestSystem cfg) (i : ℕ) (polled : Polled) (nowMs : Int64) :
    Effect s (.poll i polled nowMs) (s.poll i polled nowMs) := by
  obtain ⟨hbatches,hpushed,hrings,hseq⟩ := s.poll_frame i polled nowMs
  have hquiet : (s.poll i polled nowMs).tx = s.tx → Effect s (.poll i polled nowMs) (s.poll i polled nowMs) :=
    fun h => .quiet ⟨by rw [h],hpushed,hrings,hseq⟩ hbatches (by rw [h])
  cases hm : s.brokers[i]? with
  | none => exact hquiet (by simp only [poll,hm])
  | some m =>
    cases polled with
    | other | failed => exact hquiet (by simp only [poll,hm,MqttSubscriber.drive])
    | publish topic payload =>
      cases hrouted : m.routed cfg.fromSlice topic payload nowMs with
      | error e => exact hquiet (poll_unrouted hm hrouted)
      | ok e =>
        have htx := poll_routed hm hrouted
        cases hsend : s.tx.trySend ⟨none,m.envelope e⟩ with
        | error failure => exact hquiet (by rw [htx,Channel.apply,hsend])
        | ok tx =>
          rw [Channel.apply,hsend] at htx
          exact .publish i m topic payload nowMs e
            ⟨by rw [htx,Channel.received_of_trySend hsend],hpushed,hrings,hseq⟩ rfl hm hrouted
            (Channel.hasRoom_of_trySend hsend) hbatches (by rw [htx,Channel.sent_of_trySend hsend])

theorem normalize_effect (s : IngestSystem cfg) (eventId traceId : Ulid) (ingestMs pushMs : Int64) :
    Effect s (.normalize eventId traceId ingestMs pushMs)
      (s.normalizeNext eventId traceId ingestMs pushMs) := by
  unfold normalizeNext
  split
  · exact .quiet ⟨rfl,rfl,rfl,rfl⟩ rfl rfl
  next x rest hqueue =>
    exact .normalize x rest ⟨x.envelope,eventId,traceId,ingestMs,pushMs⟩ hqueue rfl
      (Channel.received_recv hqueue) rfl rfl rfl (Channel.sent_recv s.tx)

theorem step_effect (s : IngestSystem cfg) (a : IngestAction) : Effect s a (s.step a) := by
  cases a with
  | http authorization body nowMs rate => exact s.http_effect authorization body nowMs rate
  | wsOpen token =>
    refine .quiet ?_ ?_ ?_ <;> simp only [step,openSession] <;> split <;>
      first | rfl | exact ⟨rfl,rfl,rfl,rfl⟩
  | wsMessage i body nowMs rate => exact s.message_effect i body nowMs rate
  | wsClose i => exact .quiet ⟨rfl,rfl,rfl,rfl⟩ rfl rfl
  | send i => exact s.send_effect i
  | poll i polled nowMs => exact s.poll_effect i polled nowMs
  | normalize eventId traceId ingestMs pushMs => exact s.normalize_effect eventId traceId ingestMs pushMs
  | consume takes => exact .quiet ⟨rfl,rfl,rfl,rfl⟩ rfl rfl
  | close => exact .quiet ⟨rfl,rfl,rfl,rfl⟩ rfl rfl

end IngestSystem

end Percept
