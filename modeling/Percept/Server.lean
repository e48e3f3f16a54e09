import Percept.ColdWriter
import Percept.Normalizer

/-! The serving process: HTTP handlers send to the bus, the normalizer takes from the bus and
offers to the cold writer's channel, the cold writer takes from there. On a signal the listener
stops and `run` waits for the handlers, drops its own sender of the bus and waits for the
normalizer; then `main` drops the runtime, and with it every task that is still there. -/
namespace Percept

/-- Up to the signal; until `axum::serve` is back; until the normalizer is done; `run` is
back; the runtime is dropped. -/
inductive Phase
  | serving | draining | joining | returned | dropped
  deriving DecidableEq

/-- `mqtt`: a broker is configured, and its task, which never ends, holds a sender of the bus. -/
structure ServerConfig where
  hotRing : HotRingConfig := {}
  busDepth : ℕ := 4096
  batchSize : ℕ := 256
  mqtt : Bool := false
  forwarder : Bool := false
  embedder : Option EmbedSelector := none

/-- A handler in its sending loop. -/
structure Handler where
  tokenName : String
  sent : List ℕ
  pending : List (Ticketed IngestEvent)

/-- Events have tickets from the request on. The normalizer's sink for the cold writer is
`cold`; `shed` has the tickets that found it full. -/
structure Server (cfg : ServerConfig) where
  phase : Phase
  handlers : List Handler
  nextTicket : ℕ
  acked : List ℕ
  bus : Channel (Ticketed IngestEnvelope)
  normalizer : Normalizer cfg.hotRing
  cold : Channel (Ticketed Event)
  shed : List ℕ
  writer : ColdWriter

inductive Action
  | accept (tokenName : String) (events : List IngestEvent)
  | enqueue (i : ℕ)
  | publish (envelope : IngestEnvelope)
  | normalize (eventId traceId : Ulid) (ingestMs pushMs : Int64)
  | consume (takes : Consumer → ℕ)
  | receive (commit : Except ColdError Unit)
  | tick (commit : Except ColdError Unit)
  | inputClosed (commit : Except ColdError Unit)
  | signal | serveReturns | normalizerExits | dropRuntime

namespace Server

variable {cfg : ServerConfig}

def spawn (cfg : ServerConfig) (schemas : SchemaIndex) (store : ColdStore) : Server cfg where
  phase := .serving
  handlers := []
  nextTicket := 0
  acked := []
  bus := .new cfg.busDepth
  normalizer := {
    hotRings := .new
    metrics := .new
    schemas
    coldTx := none
    embedSink := cfg.embedder.map fun selector => ⟨.new cfg.busDepth,selector⟩
    forwardTx := if cfg.forwarder then some (.new cfg.busDepth) else none
    seqBySource := fun _ => 0 }
  cold := .new cfg.busDepth
  shed := []
  writer := .new store

/-- A request whose events passed all checks enters its sending loop. -/
def accept (s : Server cfg) (tokenName : String) (events : List IngestEvent) : Server cfg :=
  if events.isEmpty then s
  else { s with
    handlers := s.handlers ++
      [⟨tokenName,[],(events.zipIdx s.nextTicket).map fun x => ⟨x.2,x.1⟩⟩]
    nextTicket := s.nextTicket+events.length }

/-- The next `try_send` of one handler. After the last one it answers 200, after a failure
429 or 503. -/
def enqueue (s : Server cfg) (i : ℕ) : Server cfg :=
  match s.handlers.drop i with
  | [] => s
  | h::after => match h.pending with
    | [] => s
    | m::rest => match s.bus.trySend ⟨m.ticket,⟨m.val,some h.tokenName⟩⟩ with
      | .error _ => { s with handlers := s.handlers.take i ++ after }
      | .ok bus =>
        if rest.isEmpty then { s with
          bus
          handlers := s.handlers.take i ++ after
          acked := s.acked ++ (h.sent ++ [m.ticket]) }
        else { s with
          bus
          handlers := s.handlers.take i ++ ⟨h.tokenName,h.sent ++ [m.ticket],rest⟩::after }

/-- A message of a broker goes to the bus unacknowledged. -/
def publish (s : Server cfg) (envelope : IngestEnvelope) : Server cfg :=
  let (bus,metrics) := offer "mqtt_subscriber" ⟨s.nextTicket,envelope⟩ s.bus s.normalizer.metrics
  { s with bus, normalizer := { s.normalizer with metrics }, nextTicket := s.nextTicket+1 }

/-- The normalizer's loop body on the oldest message of the bus. -/
def normalizeNext (ulid : UlidText) (s : Server cfg) (eventId traceId : Ulid)
    (ingestMs pushMs : Int64) : Server cfg :=
  match s.bus.queue with
  | [] => s
  | m::_ =>
    let (e,n) := s.normalizer.normalize ulid ⟨m.val,eventId,traceId,ingestMs,pushMs⟩
    let hotRings := (n.hotRings.push e pushMs).2
    let (cold,metrics) := offer "cold_writer" ⟨m.ticket,e⟩ s.cold n.metrics
    let n := { n with hotRings, metrics }.fanOut e
    { s with
      bus := s.bus.recv
      normalizer := { n with metrics := n.metrics.incAccepted m.val.tokenName }
      cold
      shed := if !s.cold.closed && !s.cold.hasRoom then s.shed ++ [m.ticket] else s.shed }

def writerReceive (s : Server cfg) (commit : Except ColdError Unit) : Server cfg :=
  match s.cold.queue with
  | [] => s
  | m::_ => { s with cold := s.cold.recv, writer := s.writer.receive cfg.batchSize m commit }

/-- Tasks that are dropped take their buffers and channels with them. -/
def dropRuntime (s : Server cfg) : Server cfg :=
  { s with
    phase := .dropped
    cold := .new s.cold.capacity
    writer := { s.writer with buf := [] } }

/-- A step; one that is not possible now changes nothing. -/
def step (ulid : UlidText) (s : Server cfg) (a : Action) : Server cfg :=
  if s.phase = .dropped then s
  else match a with
    | .accept tokenName events =>
      if s.phase = .serving ∨ s.phase = .draining then s.accept tokenName events else s
    | .enqueue i => s.enqueue i
    | .publish envelope => if cfg.mqtt then s.publish envelope else s
    | .normalize eventId traceId ingestMs pushMs =>
      if s.phase = .returned then s else s.normalizeNext ulid eventId traceId ingestMs pushMs
    | .consume takes => { s with normalizer := s.normalizer.drain takes }
    | .receive commit => s.writerReceive commit
    | .tick commit => { s with writer := s.writer.flushRest commit }
    | .inputClosed commit =>
      if s.phase = .returned ∧ s.cold.queue.isEmpty then
        { s with writer := s.writer.flushRest commit }
      else s
    | .signal => if s.phase = .serving then { s with phase := .draining } else s
    | .serveReturns =>
      if s.phase = .draining ∧ s.handlers.isEmpty then { s with phase := .joining } else s
    | .normalizerExits =>
      if s.phase = .joining ∧ cfg.mqtt = false ∧ s.bus.queue.isEmpty then
        { s with phase := .returned }
      else s
    | .dropRuntime => if s.phase = .returned then s.dropRuntime else s

/-- The normalizer with its sink for the cold writer, tickets forgotten. -/
def fullNormalizer (s : Server cfg) : Normalizer cfg.hotRing :=
  { s.normalizer with coldTx := some (s.cold.map Ticketed.val) }

theorem offer_map {α β : Type} (f : α → β) (consumer : String) (a : α) (tx : Channel α)
    (m : Metrics) :
    offer consumer (f a) (tx.map f) m =
      ((offer consumer a tx m).1.map f,(offer consumer a tx m).2) := by
  unfold offer
  rw [Channel.trySend_map]
  cases htx : tx.trySend a with
  | ok tx' => rfl
  | error e => cases e <;> rfl

/-- Without the tickets this is the loop body of the normalizer. -/
theorem normalizeNext_full (ulid : UlidText) {s : Server cfg} (hcold : s.normalizer.coldTx = none)
    {m : Ticketed IngestEnvelope} {rest : List (Ticketed IngestEnvelope)}
    (hqueue : s.bus.queue = m::rest) (eventId traceId : Ulid) (ingestMs pushMs : Int64) :
    (s.normalizeNext ulid eventId traceId ingestMs pushMs).fullNormalizer =
      (s.fullNormalizer.step ulid ⟨m.val,eventId,traceId,ingestMs,pushMs⟩).2 := by
  generalize ha : Arrival.mk m.val eventId traceId ingestMs pushMs = a
  have hnorm : s.fullNormalizer.normalize ulid a =
      ((s.normalizer.normalize ulid a).1,
        { (s.normalizer.normalize ulid a).2 with coldTx := some (s.cold.map Ticketed.val) }) := rfl
  have hnone : (s.normalizer.normalize ulid a).2.coldTx = none := hcold
  rcases hn : s.normalizer.normalize ulid a with ⟨e,n⟩
  rw [hn] at hnorm hnone
  obtain ⟨rings,metrics,schemas,coldTx,embedSink,forwardTx,seqs⟩ := n
  obtain rfl : coldTx = none := hnone
  have hoffer := offer_map Ticketed.val "cold_writer" ⟨m.ticket,e⟩ s.cold metrics
  simp only at hoffer
  simp only [Normalizer.step,hnorm]
  simp only [normalizeNext,hqueue,ha,hn,Normalizer.fanOut,fullNormalizer,offerTo,hoffer]
  subst ha
  rfl

end Server

end Percept
