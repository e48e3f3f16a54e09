import Percept.Lib.Channel
import Percept.Metrics
import Percept.Retention
import Percept.Wire

/-! `POST /ingest`: authentication, the checks of a batch, and the loop that hands the batch
to the normalizer's channel one `try_send` at a time. Other producers and the normalizer
use the channel between two of these sends. -/
namespace Percept

inductive ShedReason
  | busFull | rateLimit | unauthorized | payloadTooLarge | unresolvedKind
  deriving DecidableEq

def ShedReason.asStr : ShedReason → String
  | .busFull => "bus_full"
  | .rateLimit => "rate_limit"
  | .unauthorized => "unauthorized"
  | .payloadTooLarge => "payload_too_large"
  | .unresolvedKind => "unresolved_kind"

/-- A rate limiter, by its answer to the next `check`: the time to wait, or nothing. -/
structure Limiter where
  check : Option Duration

structure TokenScope where
  name : String
  sourceGlobs : String → Bool
  kindGlobs : String → Bool
  limiter : Option Limiter

namespace TokenScope

def allows (s : TokenScope) (sourceId kind : String) : Bool :=
  s.sourceGlobs sourceId && s.kindGlobs kind

/-- `some wait` when rate-limited. -/
def checkRate (s : TokenScope) : Option Duration := s.limiter.bind fun l => l.check

end TokenScope

structure Auth where
  byToken : String → Option TokenScope

structure IngestEnvelope where
  event : IngestEvent
  tokenName : Option String

inductive Body
  | text (s : String)
  | accepted (n : ℕ)
  deriving DecidableEq

structure Response where
  status : ℕ
  body : Body
  shedReason : Option String := none
  retryAfter : Option String := none
  deriving DecidableEq

/-- Status 429 with the reason; a wait is announced in whole seconds, at least one. -/
def shedResponse (reason : ShedReason) (retryAfter : Option Duration) : Response where
  status := 429
  body := .text reason.asStr
  shedReason := some reason.asStr
  retryAfter := retryAfter.map fun d => toString (max d.secs.toNat 1)

mutual
/-- `approx_semantic_size`. -/
def approxSemanticSize : Json → ℕ
  | .null => 4
  | .bool _ => 5
  | .number _ => 16
  | .string s => s.utf8ByteSize+2
  | .array a => elementsSize a+2
  | .object o => fieldsSize o+2

def elementsSize : List Json → ℕ
  | [] => 0
  | v::a => approxSemanticSize v+elementsSize a

def fieldsSize : List (String × Json) → ℕ
  | [] => 0
  | (k,v)::o => k.utf8ByteSize+4+approxSemanticSize v+fieldsSize o
end

/-- `strip_prefix`. -/
def stripPrefix (start s : String) : Option String :=
  if start.toList.isPrefixOf s.toList then some (String.ofList (s.toList.drop start.toList.length))
  else none

/-- The `Authorization` header, and the body as JSON or the parser's error text. -/
structure HttpRequest where
  authorization : Option String
  body : Except String Json

def authenticate (auth : Auth) (authorization : Option String) : Except Response TokenScope :=
  match authorization.bind (stripPrefix "Bearer ") with
  | none => .error { status := 401, body := .text "missing bearer token" }
  | some token => match auth.byToken token with
    | none => .error { status := 401, body := .text "unknown bearer token" }
    | some scope => .ok scope

/-- `serde_json::from_slice` into the untagged payload, and its events. -/
def parsePayload (ulid : UlidText) (body : Except String Json) : Except String (List IngestEvent) :=
  match body with
  | .error e => .error e
  | .ok j => match IngestPayload.ofJson ulid j with
    | none => .error "data did not match any variant of untagged enum IngestPayload"
    | some payload => .ok payload.intoEvents

/-- An envelope in the channel, with a mark whether the request at hand enqueued it. -/
structure Posted where
  ours : Bool
  envelope : IngestEnvelope

/-- What a request works with: configuration, and the shared counters and channel. -/
structure HttpState where
  ulid : UlidText
  auth : Auth
  hardCapBytes : ℕ
  softCapBytes : ℕ
  metrics : Metrics
  tx : Channel Posted

/-- Scope and size of every event; the first event that fails rejects the batch. -/
def checkEvents (s : HttpState) (scope : TokenScope) (nowMs : Int64) :
    List IngestEvent → Metrics → Option ShedReason × Metrics
  | [], m => (none,m)
  | e::events, m =>
    let size := approxSemanticSize e.semantic
    if !scope.allows e.sourceId e.kind then
      (some .unauthorized,(m.incShed ShedReason.unauthorized.asStr (some scope.name)).incSourceError
        e.sourceId ShedReason.unauthorized.asStr nowMs)
    else if s.hardCapBytes < size then
      (some .payloadTooLarge,(m.incShed ShedReason.payloadTooLarge.asStr (some scope.name)).incSourceError
        e.sourceId ShedReason.payloadTooLarge.asStr nowMs)
    else checkEvents s scope nowMs events (if s.softCapBytes < size then m.incOversizedSoft else m)

/-- Operations of the other users of the channel. -/
abbrev Interference := ℕ → List (Channel.Op IngestEnvelope)

def foreign : Channel.Op IngestEnvelope → Channel.Op Posted
  | .trySend e => .trySend ⟨false,e⟩
  | .recv => .recv
  | .close => .close

def TokenScope.envelope (scope : TokenScope) (e : IngestEvent) : IngestEnvelope := ⟨e,some scope.name⟩

/-- The sending loop; `accepted` counts the events enqueued so far. -/
def enqueue (scope : TokenScope) (nowMs : Int64) (between : Interference) :
    List IngestEvent → ℕ → Metrics → Channel Posted → Response × Metrics × Channel Posted
  | [], accepted, m, tx => ({ status := 200, body := .accepted accepted },m,tx)
  | e::events, accepted, m, tx =>
    let tx := tx.run ((between accepted).map foreign)
    match tx.trySend ⟨true,scope.envelope e⟩ with
    | .ok tx => enqueue scope nowMs between events (accepted+1) m tx
    | .error .full => (shedResponse .busFull (some ⟨0,100000000⟩),
        (m.incShed ShedReason.busFull.asStr (some scope.name)).incSourceError
          e.sourceId ShedReason.busFull.asStr nowMs,tx)
    | .error .closed => ({ status := 503, body := .text "shutting down" },m,tx)

/-- The handler. -/
def ingest (s : HttpState) (req : HttpRequest) (nowMs : Int64) (between : Interference) :
    Response × HttpState :=
  match authenticate s.auth req.authorization with
  | .error resp => (resp,s)
  | .ok scope => match parsePayload s.ulid req.body with
    | .error e => ({ status := 400, body := .text ("invalid JSON: " ++ e) },s)
    | .ok [] => ({ status := 400, body := .text "no events in payload" },s)
    | .ok events => match checkEvents s scope nowMs events s.metrics with
      | (some reason,m) => (shedResponse reason none,{ s with metrics := m })
      | (none,m) => match scope.checkRate with
        | some wait =>
          let m := m.incShed ShedReason.rateLimit.asStr (some scope.name)
          (shedResponse .rateLimit (some wait),{ s with
            metrics := events.foldl (fun m e =>
              m.incSourceError e.sourceId ShedReason.rateLimit.asStr nowMs) m })
        | none =>
          let (resp,m,tx) := enqueue scope nowMs between events 0 m s.tx
          (resp,{ s with metrics := m, tx })

section

variable {s : HttpState} {scope : TokenScope} {nowMs : Int64} {between : Interference}

theorem checkEvents_none_iff {events : List IngestEvent} {m : Metrics} :
    (checkEvents s scope nowMs events m).1 = none ↔ ∀ e ∈ events,
      scope.allows e.sourceId e.kind = true ∧ approxSemanticSize e.semantic ≤ s.hardCapBytes := by
  induction events generalizing m with
  | nil => simp [checkEvents]
  | cons e events ih =>
    simp only [checkEvents]
    split
    next hdeny => simp_all
    next hallow =>
      split
      next hbig => simp [hbig]
      next hsize => simp_all

/-- Envelopes of the request at hand among all that were sent. -/
def ours (tx : Channel Posted) : List IngestEnvelope := (tx.sent.filter (·.ours)).map (·.envelope)

theorem ours_run_foreign (tx : Channel Posted) (ops : List (Channel.Op IngestEnvelope)) :
    ours (tx.run (ops.map foreign)) = ours tx := by
  unfold ours
  rw [Channel.filter_sent_run]
  intro a ha
  obtain ⟨op,_,hop⟩ := List.mem_map.mp ha
  cases op <;> cases hop
  rfl

theorem ours_trySend {tx tx' : Channel Posted} {e : IngestEnvelope}
    (h : tx.trySend ⟨true,e⟩ = .ok tx') : ours tx' = ours tx ++ [e] := by
  simp [ours,Channel.sent_of_trySend h]

theorem level_run_foreign (tx : Channel Posted) (ops : List (Channel.Op IngestEnvelope)) :
    (tx.run (ops.map foreign)).level = tx.level.run ops := by
  rw [Channel.level_run]
  generalize tx.level = l
  induction ops generalizing l with
  | nil => rfl
  | cons op ops ih =>
    have hop : l.apply (foreign op) = l.apply op := by cases op <;> rfl
    simp only [Channel.Level.run,List.map_cons,List.foldl_cons,hop] at ih ⊢
    exact ih _

/-- Room at each of the next `n` sends, seen from the fill level before the first. -/
def roomForBatch (between : Interference) (start n : ℕ) (l : Channel.Level) : Bool :=
  l.roomForAll ((List.range' start n).map between)

theorem roomForBatch_succ (between : Interference) (start n : ℕ) (l : Channel.Level) :
    roomForBatch between start (n+1) l = ((l.run (between start)).hasRoom &&
      roomForBatch between (start+1) n (l.run (between start)).push) := rfl

/-- The loop enqueues a front part of the batch: all of it exactly when there is room at
every send, nothing of it exactly when there is none at the first. -/
theorem enqueue_spec (scope : TokenScope) (nowMs : Int64) (between : Interference)
    (events : List IngestEvent) (accepted : ℕ) (m : Metrics) (tx : Channel Posted) :
    ∃ k ≤ events.length,
      ours (enqueue scope nowMs between events accepted m tx).2.2 =
        ours tx ++ (events.take k).map scope.envelope ∧
      ((enqueue scope nowMs between events accepted m tx).1.status = 200 ↔ k = events.length) ∧
      (k = events.length → (enqueue scope nowMs between events accepted m tx).1.body =
        .accepted (accepted+events.length)) ∧
      (k = events.length ↔ roomForBatch between accepted events.length tx.level = true) ∧
      (events ≠ [] → (k = 0 ↔ (tx.level.run (between accepted)).hasRoom = false)) := by
  induction events generalizing accepted m tx with
  | nil => exact ⟨0,by simp [enqueue,roomForBatch,Channel.Level.roomForAll]⟩
  | cons e events ih =>
    have hlevel := level_run_foreign tx (between accepted)
    have hours := ours_run_foreign tx (between accepted)
    simp only [enqueue,List.length_cons,roomForBatch_succ,← hlevel,Channel.hasRoom_level]
    cases hroom : (tx.run ((between accepted).map foreign)).hasRoom with
    | true =>
      obtain ⟨tx',htx,_⟩ := Channel.trySend_ok hroom ⟨true,scope.envelope e⟩
      obtain ⟨k,hk,hsent,hstatus,hbody,hall,_⟩ := ih (accepted+1) m tx'
      rw [Channel.level_of_trySend htx] at hall
      refine ⟨k+1,by omega,?_⟩
      simp only [htx,hsent,ours_trySend htx,hours,hstatus]
      refine ⟨by simp,by omega,fun h => ?_,by simpa using hall,by simp⟩
      rw [hbody (by omega)]
      congr 1
      omega
    | false =>
      rw [Channel.trySend_error hroom]
      refine ⟨0,by omega,?_⟩
      split <;> simp_all [shedResponse]

end

/-- The batch that the request submits, when it can be read. -/
def submitted (s : HttpState) (req : HttpRequest) (scope : TokenScope)
    (events : List IngestEvent) : Prop :=
  authenticate s.auth req.authorization = .ok scope ∧ parsePayload s.ulid req.body = .ok events

/-- Not 200: nothing of the batch was enqueued. 200: all of it, once and in order, and
`accepted` is its length. -/
structure AllOrNothing (s : HttpState) (req : HttpRequest) (resp : Response) (s' : HttpState) :
    Prop where
  rejected : resp.status ≠ 200 → ours s'.tx = ours s.tx
  accepted : resp.status = 200 → ∃ scope events, submitted s req scope events ∧
    ours s'.tx = ours s.tx ++ events.map scope.envelope ∧ resp.body = .accepted events.length

/-- The batch passes every check before the sending loop. -/
structure Admitted (s : HttpState) (req : HttpRequest) (scope : TokenScope)
    (events : List IngestEvent) : Prop where
  submitted : submitted s req scope events
  nonempty : events ≠ []
  checked : ∀ e ∈ events,
    scope.allows e.sourceId e.kind = true ∧ approxSemanticSize e.semantic ≤ s.hardCapBytes
  rate : scope.checkRate = none

section

variable {s : HttpState} {req : HttpRequest} {nowMs : Int64} {between : Interference}
  {scope : TokenScope} {events : List IngestEvent}

/-- A batch that passes the checks goes to the sending loop. -/
theorem ingest_admitted (nowMs : Int64) (between : Interference) (h : Admitted s req scope events) :
    ∃ m, (ingest s req nowMs between).1 = (enqueue scope nowMs between events 0 m s.tx).1 ∧
      (ingest s req nowMs between).2.tx = (enqueue scope nowMs between events 0 m s.tx).2.2 := by
  obtain ⟨hauth,hparse⟩ := h.submitted
  have hcheck : (checkEvents s scope nowMs events s.metrics).1 = none :=
    checkEvents_none_iff.mpr h.checked
  obtain ⟨e,rest,rfl⟩ := List.exists_cons_of_ne_nil h.nonempty
  refine ⟨(checkEvents s scope nowMs (e::rest) s.metrics).2,?_⟩
  rcases hpair : checkEvents s scope nowMs (e::rest) s.metrics with ⟨reason,m⟩
  rw [hpair] at hcheck
  simp only at hcheck
  subst hcheck
  simp [ingest,hauth,hparse,hpair,h.rate]

/-- Any other request gets a status that is not 200 and leaves the channel alone. -/
theorem ingest_rejected (nowMs : Int64) (between : Interference)
    (h : ¬ ∃ scope events, Admitted s req scope events) :
    (ingest s req nowMs between).1.status ≠ 200 ∧ (ingest s req nowMs between).2.tx = s.tx := by
  unfold ingest
  split
  next resp hauth =>
    unfold authenticate at hauth
    split at hauth
    · cases hauth
      exact ⟨by simp,rfl⟩
    · split at hauth <;> cases hauth
      exact ⟨by simp,rfl⟩
  next scope hauth =>
    split
    · exact ⟨by simp,rfl⟩
    · exact ⟨by simp,rfl⟩
    next events hne hparse =>
      split
      · exact ⟨by simp [shedResponse],rfl⟩
      next m hcheck =>
        split
        · exact ⟨by simp [shedResponse],rfl⟩
        next hrate =>
          have hchecked := checkEvents_none_iff.mp (congrArg Prod.fst hcheck)
          exact absurd ⟨scope,events,⟨hauth,hparse⟩,by rintro rfl; exact hne rfl,hchecked,hrate⟩ h

/-- Batch ingest is all-or-nothing exactly when an admitted batch finds the channel full or
closed at its first send, or finds room at every one of its sends. -/
theorem http_all_or_nothing_iff (s : HttpState) (req : HttpRequest) (nowMs : Int64)
    (between : Interference) :
    AllOrNothing s req (ingest s req nowMs between).1 (ingest s req nowMs between).2 ↔
      ∀ scope events, Admitted s req scope events →
        (s.tx.level.run (between 0)).hasRoom = false ∨
          roomForBatch between 0 events.length s.tx.level = true := by
  by_cases hadm : ∃ scope events, Admitted s req scope events
  · obtain ⟨scope,events,h⟩ := hadm
    obtain ⟨m,hresp,htx⟩ := ingest_admitted nowMs between h
    obtain ⟨k,hk,hours,hstatus,hbody,hall,hnone⟩ :=
      enqueue_spec scope nowMs between events 0 m s.tx
    rw [← hresp] at hstatus hbody
    rw [← htx] at hours
    have hnone := hnone h.nonempty
    have hpos : 0 < events.length := List.length_pos_iff.mpr h.nonempty
    constructor
    · rintro hprop scope' events' ⟨⟨hauth,hparse⟩,_,_,_⟩
      obtain rfl : scope = scope' := Except.ok.inj (h.submitted.1.symm.trans hauth)
      obtain rfl : events = events' := Except.ok.inj (h.submitted.2.symm.trans hparse)
      by_cases hfull : k = events.length
      · exact Or.inr (hall.mp hfull)
      · have hnothing := hprop.rejected (mt hstatus.mp hfull)
        rw [hours] at hnothing
        have htake : (events.take k).length = 0 := by
          simpa using congrArg List.length hnothing
        rw [List.length_take] at htake
        exact Or.inl (hnone.mp (by omega))
    · intro hcond
      rcases hcond scope events h with hfirst | hroom
      · have hk₀ : k = 0 := hnone.mpr hfirst
        refine ⟨fun _ => by simp [hours,hk₀],fun h200 => ?_⟩
        have := hstatus.mp h200
        omega
      · have hk' : k = events.length := hall.mpr hroom
        refine ⟨fun hne => absurd (hstatus.mpr hk') hne,fun _ => ⟨scope,events,h.submitted,?_,?_⟩⟩
        · simp [hours,hk']
        · simpa using hbody hk'
  · obtain ⟨hstatus,htx⟩ := ingest_rejected nowMs between hadm
    exact ⟨fun _ scope events h => absurd ⟨scope,events,h⟩ hadm,
      fun _ => ⟨fun _ => by rw [htx],fun h => absurd h hstatus⟩⟩

/-- One free slot left for a batch of two. -/
def fullAfterOne : HttpState where
  ulid := ⟨fun _ => "",fun _ => none⟩
  auth := ⟨fun token => if token = "t" then some ⟨"cams",fun _ => true,fun _ => true,none⟩ else none⟩
  hardCapBytes := 65536
  softCapBytes := 16384
  metrics := .new
  tx := .new 1

def batchOfTwo : HttpRequest where
  authorization := some "Bearer t"
  body := .ok (.array (List.replicate 2 (.object [("source_id",.string "cam"),
    ("kind",.string "frame"),("ts_ms_utc",.ofInt64 5),("semantic",.null)])))

/-- The second event finds the channel full: 429 for a batch whose first event is in it. -/
theorem http_all_or_nothing_fails :
    (ingest fullAfterOne batchOfTwo 0 fun _ => []).1 = shedResponse .busFull (some ⟨0,100000000⟩) ∧
      ours fullAfterOne.tx = [] ∧
      (ours (ingest fullAfterOne batchOfTwo 0 fun _ => []).2.tx).length = 1 := by
  decide

end

end Percept
