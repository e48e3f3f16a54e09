import Percept.HotRings
import Percept.Http

/-! The normalizer, one task: it takes an envelope off the bus, assigns what the server
assigns, pushes the event into the hot rings and offers it to each configured consumer with
one `try_send`. A consumer does nothing but take from its own channel. -/
namespace Percept

/-- `Error::InvalidKindRef`. -/
inductive KindRefError
  | emptyString | missingName (s : String) | missingVersion (s : String)
  deriving DecidableEq

structure KindRef where
  name : String
  version : Option String
  deriving DecidableEq

/-- `"name"` or `"name@vN"`. -/
def KindRef.fromStr (s : String) : Except KindRefError KindRef :=
  if s = "" then .error .emptyString
  else match splitOnce '@' s with
    | none => .ok ⟨s,none⟩
    | some (name,version) =>
      if name = "" then .error (.missingName s)
      else if version = "" then .error (.missingVersion s)
      else .ok ⟨name,some version⟩

/-- Compiled schemas; the validator stays outside, a schema is its verdict on a payload. -/
structure SchemaIndex where
  source : String → Option (Json → Bool)
  kind : String × String → Option (Json → Bool)
  latestVersion : String → Option String

namespace SchemaIndex

/-- No schema at all. -/
def empty : SchemaIndex := ⟨fun _ => none,fun _ => none,fun _ => none⟩

/-- A source override wins unconditionally. -/
def lookup (idx : SchemaIndex) (sourceId rawKind : String) : Option (Json → Bool) :=
  match idx.source sourceId with
  | some schema => some schema
  | none => match KindRef.fromStr rawKind with
    | .error _ => none
    | .ok kref => (kref.version.or (idx.latestVersion kref.name)).bind fun version =>
        idx.kind (kref.name,version)

/-- `some true` when a schema applied and the payload failed. -/
def validate (idx : SchemaIndex) (sourceId rawKind : String) (semantic : Json) : Option Bool :=
  (idx.lookup sourceId rawKind).map fun schema => !schema semantic

end SchemaIndex

structure EmbedSelector where
  embedDefault : Bool
  byKind : String → Option Bool
  bySource : String → Option Bool

/-- Source before kind before default. -/
def EmbedSelector.shouldEmbed (s : EmbedSelector) (sourceId kind : String) : Bool :=
  match s.bySource sourceId with
  | some v => v
  | none => match s.byKind (bareKind kind) with
    | some v => v
    | none => s.embedDefault

structure EmbedSink where
  tx : Channel Event
  selector : EmbedSelector

structure Normalizer (config : HotRingConfig) where
  hotRings : HotRings config
  metrics : Metrics
  schemas : SchemaIndex
  coldTx : Option (Channel Event)
  embedSink : Option EmbedSink
  forwardTx : Option (Channel Event)
  seqBySource : String → UInt64

/-- An envelope, and what `new_event_id` and `now_ms_utc` return while it is handled. -/
structure Arrival where
  envelope : IngestEnvelope
  eventId : Ulid
  traceId : Ulid
  ingestMs : Int64
  pushMs : Int64

/-- One `try_send`: a full channel counts a drop, a closed one does not. -/
def offer {α : Type} (consumer : String) (e : α) (tx : Channel α) (m : Metrics) :
    Channel α × Metrics :=
  match tx.trySend e with
  | .ok tx => (tx,m)
  | .error .full => (tx,m.incConsumerDrop consumer)
  | .error .closed => (tx,m)

/-- Nothing is offered to a consumer that is not configured. -/
def offerTo (consumer : String) (e : Event) (tx : Option (Channel Event)) (m : Metrics) :
    Option (Channel Event) × Metrics :=
  match tx with
  | none => (none,m)
  | some tx => let (tx,m) := offer consumer e tx m; (some tx,m)

/-- The embedder gets what its selector picks. -/
def offerToEmbedder (e : Event) (sink : Option EmbedSink) (m : Metrics) :
    Option EmbedSink × Metrics :=
  match sink with
  | none => (none,m)
  | some sink =>
    if sink.selector.shouldEmbed e.sourceId e.kind then
      let (tx,m) := offer "embedder" e sink.tx m
      (some { sink with tx },m)
    else (some sink,m)

namespace Normalizer

variable {config : HotRingConfig}

def normalize (ulid : UlidText) (n : Normalizer config) (a : Arrival) :
    Event × Normalizer config :=
  let e := a.envelope.event
  let seq := n.seqBySource e.sourceId+1
  let invalid := n.schemas.validate e.sourceId e.kind e.semantic = some true
  let metrics := if invalid then
      n.metrics.incSchemaInvalid.incSourceError e.sourceId "schema_invalid" a.ingestMs
    else n.metrics
  ({ eventId := e.eventId.getD a.eventId
     sourceId := e.sourceId
     kind := e.kind
     tsMsUtc := e.tsMsUtc
     semantic := e.semantic
     links := e.links
     traceId := some (e.traceId.getD (ulid.toText a.traceId))
     ingestTsMsUtc := some a.ingestMs
     seq := some seq
     producerId := e.producerId
     schemaInvalid := if invalid then some true else none },
   { n with metrics, seqBySource := Function.update n.seqBySource e.sourceId seq })

/-- The three sends of the loop body. -/
def fanOut (n : Normalizer config) (e : Event) : Normalizer config :=
  let (coldTx,m) := offerTo "cold_writer" e n.coldTx n.metrics
  let (embedSink,m) := offerToEmbedder e n.embedSink m
  let (forwardTx,m) := offerTo "forwarder" e n.forwardTx m
  { n with coldTx, embedSink, forwardTx, metrics := m }

/-- The loop body, with the event that it pushes. -/
def step (ulid : UlidText) (n : Normalizer config) (a : Arrival) : Event × Normalizer config :=
  let (e,n) := n.normalize ulid a
  let n := { n with hotRings := (n.hotRings.push e a.pushMs).2 }
  let n := n.fanOut e
  (e,{ n with metrics := n.metrics.incAccepted a.envelope.tokenName })

end Normalizer

inductive Consumer
  | coldWriter | embedder | forwarder
  deriving DecidableEq

/-- Label of the drop counter. -/
def Consumer.name : Consumer → String
  | .coldWriter => "cold_writer"
  | .embedder => "embedder"
  | .forwarder => "forwarder"

namespace Normalizer

variable {config : HotRingConfig}

def channel (n : Normalizer config) : Consumer → Option (Channel Event)
  | .coldWriter => n.coldTx
  | .embedder => n.embedSink.map EmbedSink.tx
  | .forwarder => n.forwardTx

/-- The events that a consumer is offered. -/
def accepts (n : Normalizer config) : Consumer → Event → Bool
  | .embedder, e => n.embedSink.any fun sink => sink.selector.shouldEmbed e.sourceId e.kind
  | _, _ => true

/-- Each consumer takes some messages from its channel. -/
def drain (n : Normalizer config) (takes : Consumer → ℕ) : Normalizer config :=
  { n with
    coldTx := n.coldTx.map Channel.recv^[takes .coldWriter]
    embedSink := n.embedSink.map fun sink => { sink with tx := Channel.recv^[takes .embedder] sink.tx }
    forwardTx := n.forwardTx.map Channel.recv^[takes .forwarder] }

/-- The loop, with all that it pushes. Before the `i`-th step the consumers take messages. -/
def run (ulid : UlidText) (takes : Consumer → ℕ → ℕ) :
    ℕ → List Arrival → Normalizer config → List Event × Normalizer config
  | _, [], n => ([],n)
  | i, a::l, n =>
    let (e,n) := (n.drain fun c => takes c i).step ulid a
    let (events,n) := run ulid takes (i+1) l n
    (e::events,n)

end Normalizer

end Percept
