import Percept.Normalizer

/-! The MQTT adapter: topic filters and source templates, payload decoders, the first
subscription that matches a topic, and the subscriber that puts its event on the bus. -/
namespace Percept

/-- `str::split` at a character. -/
def splitOn (c : Char) (s : String) : List String := (s.toList.splitOn c).map String.ofList

inductive TopicSegment
  | literal (s : String) | singlePlus | hash
  deriving DecidableEq

structure TopicMatcher where
  filter : List TopicSegment

structure TopicCaptures where
  pluses : List String
  hash : Option String
  deriving DecidableEq

namespace TopicMatcher

def new (filter : String) : TopicMatcher :=
  ⟨(splitOn '/' filter).map fun part =>
    if part = "+" then .singlePlus else if part = "#" then .hash else .literal part⟩

/-- The loop over the filter, with the parts of the topic that are left. -/
def capturesFrom : List TopicSegment → List String → List String → Option TopicCaptures
  | [], [], pluses => some ⟨pluses,none⟩
  | [], _::_, _ => none
  | .hash::_, parts, pluses => some ⟨pluses,some ("/".intercalate parts)⟩
  | _::_, [], _ => none
  | .singlePlus::filter, part::parts, pluses => capturesFrom filter parts (pluses ++ [part])
  | .literal s::filter, part::parts, pluses =>
    if part = s then capturesFrom filter parts pluses else none

def captures (m : TopicMatcher) (topic : String) : Option TopicCaptures :=
  capturesFrom m.filter (splitOn '/' topic) []

end TopicMatcher

inductive TemplateError
  | unknownPlaceholder (body : String) | outOfRange (n count : ℕ) | noHash
  deriving DecidableEq

/-- `str::parse` to an unsigned integer of some width: an optional `+`, then decimal digits. -/
def parseUnsigned (bits : ℕ) (s : List Char) : Option ℕ :=
  let digits := if s.head? = some '+' then s.tail else s
  if digits.isEmpty || !digits.all Char.isDigit then none
  else
    let n := digits.foldl (fun n c => 10*n+(c.toNat- '0'.toNat)) 0
    if n < 2^bits then some n else none

/-- What stands for the text between a pair of braces. -/
def placeholder (captures : TopicCaptures) (body : List Char) : Except TemplateError String :=
  if body = ['#'] then
    match captures.hash with
    | some s => .ok s
    | none => .error .noHash
  else match body with
    | '+'::idx => match parseUnsigned 64 idx with
      | none => .error (.unknownPlaceholder (.ofList body))
      | some n => match n, captures.pluses[n-1]? with
        | _+1, some s => .ok s
        | _, _ => .error (.outOfRange n captures.pluses.length)
    | _ => .error (.unknownPlaceholder (.ofList body))

/-- The scan of a template; `some body` is what was read of an open placeholder. -/
def renderFrom (captures : TopicCaptures) : Option (List Char) → List Char → Except TemplateError String
  | none, [] => .ok ""
  | none, c::rest =>
    if c = '\x7b' then renderFrom captures (some []) rest
    else (renderFrom captures none rest).map fun out => .ofList [c] ++ out
  | some body, [] => .error (.unknownPlaceholder (.ofList body))
  | some body, c::rest =>
    if c = '\x7d' then do
      let s ← placeholder captures body
      let out ← renderFrom captures none rest
      return s ++ out
    else renderFrom captures (some (body ++ [c])) rest

def render (template : String) (captures : TopicCaptures) : Except TemplateError String :=
  renderFrom captures none template.toList

inductive PayloadFormat
  | json | raw | hex | csv
  deriving DecidableEq

inductive DecodeError
  | json (e : String) | utf8
  deriving DecidableEq

/-- Two lower-case digits. -/
def hexByte (b : UInt8) : List Char := [Nat.digitChar (b.toNat/16),Nat.digitChar (b.toNat%16)]

def base64Char (n : ℕ) : Char :=
  "ABCDEFGHIJKLMNOPQRSTUVWXYZabcdefghijklmnopqrstuvwxyz0123456789+/".toList.getD n 'A'

/-- The standard alphabet without padding. -/
def base64 : List UInt8 → List Char
  | [] => []
  | [a] => [base64Char (a.toNat/4),base64Char (a.toNat%4*16)]
  | [a,b] => [base64Char (a.toNat/4),base64Char (a.toNat%4*16+b.toNat/16),
      base64Char (b.toNat%16*4)]
  | a::b::c::rest => base64Char (a.toNat/4)::base64Char (a.toNat%4*16+b.toNat/16)::
      base64Char (b.toNat%16*4+c.toNat/64)::base64Char (c.toNat%64)::base64 rest

/-- `str::lines`, the first line: a `\r` before the line feed is cut off with it. -/
def firstLine (text : List Char) : List Char :=
  let line := text.takeWhile (· ≠ '\n')
  if line.length < text.length ∧ line.getLast? = some '\r' then line.dropLast else line

/-- The scan of a row with the field read so far; a doubled quote inside quotes is a quote. -/
def csvFields : List Char → List Char → Bool → List String
  | [], cur, _ => [.ofList cur]
  | '"' :: '"' :: rest, cur, true => csvFields rest (cur ++ ['"']) true
  | '"'::rest, cur, true => csvFields rest cur false
  | c::rest, cur, true => csvFields rest (cur ++ [c]) true
  | c::rest, cur, false =>
    if c = '"' ∧ cur = [] then csvFields rest cur true
    else if c = ',' then .ofList cur::csvFields rest [] false
    else csvFields rest (cur ++ [c]) false

def parseCsvRow (s : List Char) : List String := csvFields s [] false

/-- Decoded payload; `fromSlice` is the JSON parser, or its error text. -/
def decode (fromSlice : List UInt8 → Except String Json) (format : PayloadFormat)
    (bytes : List UInt8) : Except DecodeError Json :=
  match format with
  | .json => match fromSlice bytes with
    | .error e => .error (.json e)
    | .ok v => .ok v
  | .raw => .ok (.object [("bytes_base64",.string (.ofList (base64 bytes))),("encoding",.string "raw")])
  | .hex => .ok (.object [("encoding",.string "hex"),("hex",.string (.ofList (bytes.flatMap hexByte)))])
  | .csv => match String.fromUTF8? ⟨bytes.toArray⟩ with
    | none => .error .utf8
    | some text => .ok (.object [("encoding",.string "csv"),
        ("fields",.array ((parseCsvRow (firstLine text.toList)).map .string))])

/-- A compiled JSONPath, by the values of the nodes it finds. -/
structure JsonPath where
  findSlice : Json → List (Option Json)

structure CompiledSubscription where
  topicFilter : String
  sourceIdTemplate : String
  kind : Option String
  kindField : Option (JsonPath × String)
  payload : PayloadFormat

/-- Compiled from the topic filter. -/
def CompiledSubscription.matcher (sub : CompiledSubscription) : TopicMatcher := .new sub.topicFilter

inductive RouteError
  | noMatch (topic : String)
  | template (e : TemplateError)
  | decode (e : DecodeError)
  | unresolvedKind (path : String)
  deriving DecidableEq

/-- The static kind, or the first string the path finds. -/
def resolveKind (sub : CompiledSubscription) (semantic : Json) : Except RouteError String :=
  match sub.kind with
  | some kind => .ok kind
  | none => match sub.kindField with
    | none => .error (.unresolvedKind "")
    | some (path,raw) =>
      match (path.findSlice semantic).findSome? fun node => node.bind Json.toString? with
      | some kind => .ok kind
      | none => .error (.unresolvedKind raw)

/-- The first subscription whose filter matches decides. -/
def route (fromSlice : List UInt8 → Except String Json) (topic : String) (payload : List UInt8)
    (tsMsUtc : Int64) (producerId : Option String) :
    List CompiledSubscription → Except RouteError IngestEvent
  | [] => .error (.noMatch topic)
  | sub::subs => match sub.matcher.captures topic with
    | none => route fromSlice topic payload tsMsUtc producerId subs
    | some captures => match render sub.sourceIdTemplate captures with
      | .error e => .error (.template e)
      | .ok sourceId => match decode fromSlice sub.payload payload with
        | .error e => .error (.decode e)
        | .ok semantic => match resolveKind sub semantic with
          | .error e => .error e
          | .ok kind => .ok ⟨none,sourceId,kind,tsMsUtc,semantic,none,none,producerId⟩

structure MqttMetrics where
  messagesReceived : ℕ
  messagesUnmatched : ℕ
  messagesDecodeFailed : ℕ
  reconnects : ℕ

structure MqttSubscriber where
  brokerId : String
  subscriptions : List CompiledSubscription
  metrics : MqttMetrics

/-- What one `poll` of the event loop gives. -/
inductive Polled
  | publish (topic : String) (payload : List UInt8)
  | other
  | failed

namespace MqttSubscriber

/-- The event that a publish is routed to. -/
def routed (fromSlice : List UInt8 → Except String Json) (m : MqttSubscriber) (topic : String)
    (payload : List UInt8) (nowMs : Int64) : Except RouteError IngestEvent :=
  route fromSlice topic payload nowMs (some m.brokerId) m.subscriptions

/-- `token_name` of its envelopes. -/
def envelope (m : MqttSubscriber) (e : IngestEvent) : IngestEnvelope := ⟨e,some ("mqtt:" ++ m.brokerId)⟩

def countFailure (m : MqttMetrics) : RouteError → MqttMetrics
  | .noMatch _ => { m with messagesUnmatched := m.messagesUnmatched+1 }
  | .template _ | .decode _ | .unresolvedKind _ =>
    { m with messagesDecodeFailed := m.messagesDecodeFailed+1 }

/-- One turn of the event loop; `wrap` is what the channel carries of an envelope. -/
def drive {α : Type} (fromSlice : List UInt8 → Except String Json) (wrap : IngestEnvelope → α)
    (m : MqttSubscriber) (polled : Polled) (nowMs : Int64) (tx : Channel α) (ingest : Metrics) :
    MqttSubscriber × Channel α × Metrics :=
  match polled with
  | .other => (m,tx,ingest)
  | .failed => ({ m with metrics.reconnects := m.metrics.reconnects+1 },tx,ingest)
  | .publish topic payload =>
    let counted := { m.metrics with messagesReceived := m.metrics.messagesReceived+1 }
    match m.routed fromSlice topic payload nowMs with
    | .ok e =>
      let (tx,ingest) := offer "mqtt_subscriber" (wrap (m.envelope e)) tx ingest
      ({ m with metrics := counted },tx,ingest)
    | .error e => ({ m with metrics := countFailure counted e },tx,ingest)

end MqttSubscriber

example : (TopicMatcher.new "home/+/temp").captures "home/kitchen/temp" = some ⟨["kitchen"],none⟩ ∧
    render "temp.\x7b+1\x7d" ⟨["kitchen"],none⟩ = .ok "temp.kitchen" := by decide

example : base64 [0xde,0xad,0xbe,0xef] = "3q2+7w".toList ∧
    parseCsvRow "a,\"b,c\",d\"\"".toList = ["a","b,c","d\"\""] := by decide

end Percept
