import Percept.Http

/-! A WebSocket session: every text or binary message is a payload of its own, checked and
enqueued like the body of a `POST /ingest`. The two handlers are compared stage by stage. -/
namespace Percept

/-- Text frames of the server. -/
inductive WsFrame
  | error (message : String)
  | shed (reason : ShedReason)
  | accepted (n : ℕ)
  deriving DecidableEq

def WsFrame.body : WsFrame → Json
  | .error message => .object [("error",.string message)]
  | .shed reason => .object [("shed_reason",.string reason.asStr)]
  | .accepted n => .object [("accepted",.number (.posInt (.ofNat n)))]

def WsFrame.shedReason : WsFrame → Option String
  | .shed reason => some reason.asStr
  | _ => none

/-- The query parameter picks the scope; without one the session is closed at once. -/
def wsOpen (s : HttpState) (token : String) : Option TokenScope := s.auth.byToken token

/-- The session's copy of the checks. It has no soft cap. -/
def wsCheckEvents (s : HttpState) (scope : TokenScope) (nowMs : Int64) :
    List IngestEvent → Metrics → Option ShedReason × Metrics
  | [], m => (none,m)
  | e::events, m =>
    if !scope.allows e.sourceId e.kind then
      (some .unauthorized,(m.incShed ShedReason.unauthorized.asStr (some scope.name)).incSourceError
        e.sourceId ShedReason.unauthorized.asStr nowMs)
    else if s.hardCapBytes < approxSemanticSize e.semantic then
      (some .payloadTooLarge,(m.incShed ShedReason.payloadTooLarge.asStr (some scope.name)).incSourceError
        e.sourceId ShedReason.payloadTooLarge.asStr nowMs)
    else wsCheckEvents s scope nowMs events m

/-- What a rate-limited batch does to the counters. -/
def rateShed (scope : TokenScope) (nowMs : Int64) (events : List IngestEvent) (m : Metrics) : Metrics :=
  events.foldl (fun m e => m.incSourceError e.sourceId ShedReason.rateLimit.asStr nowMs)
    (m.incShed ShedReason.rateLimit.asStr (some scope.name))

/-- A message up to the sending loop: the events to send, or the answer. -/
def wsAdmit (s : HttpState) (scope : TokenScope) (body : Except String Json) (nowMs : Int64) :
    Except WsFrame (List IngestEvent) × Metrics :=
  match parsePayload s.ulid body with
  | .error e => (.error (.error ("invalid JSON: " ++ e)),s.metrics)
  | .ok [] => (.error (.error "no events in payload"),s.metrics)
  | .ok events => match wsCheckEvents s scope nowMs events s.metrics with
    | (some reason,m) => (.error (.shed reason),m)
    | (none,m) => match scope.checkRate with
      | some _ => (.error (.shed .rateLimit),rateShed scope nowMs events m)
      | none => (.ok events,m)

/-- The sending loop. A full channel ends the message, a closed one the session; a frame
counts what was enqueued before. -/
def wsEnqueue (scope : TokenScope) (nowMs : Int64) (between : Interference) :
    List IngestEvent → ℕ → Metrics → Channel Posted → List WsFrame × Metrics × Channel Posted
  | [], accepted, m, tx => (if 0 < accepted then [.accepted accepted] else [],m,tx)
  | e::events, accepted, m, tx =>
    let tx := tx.run ((between accepted).map foreign)
    match tx.trySend ⟨true,scope.envelope e⟩ with
    | .ok tx => wsEnqueue scope nowMs between events (accepted+1) m tx
    | .error .full => (.shed .busFull::(if 0 < accepted then [.accepted accepted] else []),
        (m.incShed ShedReason.busFull.asStr (some scope.name)).incSourceError
          e.sourceId ShedReason.busFull.asStr nowMs,tx)
    | .error .closed => ([],m,tx)

/-- One message of a session, with the frames that answer it. -/
def wsMessage (s : HttpState) (scope : TokenScope) (body : Except String Json) (nowMs : Int64)
    (between : Interference) : List WsFrame × HttpState :=
  match wsAdmit s scope body nowMs with
  | (.error frame,m) => ([frame],{ s with metrics := m })
  | (.ok events,m) =>
    let (frames,m,tx) := wsEnqueue scope nowMs between events 0 m s.tx
    (frames,{ s with metrics := m, tx })

/-- The HTTP handler up to its sending loop, for an authenticated request. -/
def httpAdmit (s : HttpState) (scope : TokenScope) (body : Except String Json) (nowMs : Int64) :
    Except Response (List IngestEvent) × Metrics :=
  match parsePayload s.ulid body with
  | .error e => (.error { status := 400, body := .text ("invalid JSON: " ++ e) },s.metrics)
  | .ok [] => (.error { status := 400, body := .text "no events in payload" },s.metrics)
  | .ok events => match checkEvents s scope nowMs events s.metrics with
    | (some reason,m) => (.error (shedResponse reason none),m)
    | (none,m) => match scope.checkRate with
      | some wait => (.error (shedResponse .rateLimit (some wait)),rateShed scope nowMs events m)
      | none => (.ok events,m)

theorem ingest_eq {s : HttpState} {req : HttpRequest} {scope : TokenScope}
    (h : authenticate s.auth req.authorization = .ok scope) (nowMs : Int64) (between : Interference) :
    ingest s req nowMs between = match httpAdmit s scope req.body nowMs with
      | (.error resp,m) => (resp,{ s with metrics := m })
      | (.ok events,m) =>
        let (resp,m,tx) := enqueue scope nowMs between events 0 m s.tx
        (resp,{ s with metrics := m, tx }) := by
  simp only [ingest,h,httpAdmit]
  cases parsePayload s.ulid req.body with
  | error e => rfl
  | ok events =>
    cases events with
    | nil => rfl
    | cons e events =>
      rcases hcheck : checkEvents s scope nowMs (e::events) s.metrics with ⟨_ | reason,m⟩
      · cases hrate : scope.checkRate <;> simp only [hcheck]
        rfl
      · simp only [hcheck]

section

variable {s : HttpState} {scope : TokenScope} {nowMs : Int64} {between : Interference}

/-- An event that passes both checks. -/
def passes (s : HttpState) (scope : TokenScope) (e : IngestEvent) : Bool :=
  scope.allows e.sourceId e.kind && decide (approxSemanticSize e.semantic ≤ s.hardCapBytes)

/-- Events over the soft cap before the first that fails a check. -/
def softExcess (s : HttpState) (scope : TokenScope) (events : List IngestEvent) : ℕ :=
  (events.takeWhile (passes s scope)).countP fun e => s.softCapBytes < approxSemanticSize e.semantic

/-- Counters that differ by events over the soft cap only. -/
def Metrics.addSoft (m : Metrics) (n : ℕ) : Metrics :=
  { m with oversizedSoftTotal := m.oversizedSoftTotal+n }

theorem addSoft_addSoft (m : Metrics) (k n : ℕ) : (m.addSoft k).addSoft n = m.addSoft (k+n) := by
  simp [Metrics.addSoft,Nat.add_assoc]

theorem addSoft_eq_self_iff {m : Metrics} {n : ℕ} : m.addSoft n = m ↔ n = 0 := by
  constructor
  · intro h
    have hsoft : m.oversizedSoftTotal+n = m.oversizedSoftTotal := congrArg Metrics.oversizedSoftTotal h
    omega
  · rintro rfl
    rfl

theorem wsCheckEvents_addSoft (events : List IngestEvent) (m : Metrics) (n : ℕ) :
    wsCheckEvents s scope nowMs events (m.addSoft n) =
      ((wsCheckEvents s scope nowMs events m).1,(wsCheckEvents s scope nowMs events m).2.addSoft n) := by
  induction events with
  | nil => rfl
  | cons e events ih =>
    simp only [wsCheckEvents]
    split
    · rfl
    · split
      · rfl
      · exact ih

/-- HTTP makes the same checks and counts the events over the soft cap. -/
theorem checkEvents_eq (events : List IngestEvent) (m : Metrics) :
    checkEvents s scope nowMs events m = ((wsCheckEvents s scope nowMs events m).1,
      (wsCheckEvents s scope nowMs events m).2.addSoft (softExcess s scope events)) := by
  induction events generalizing m with
  | nil => rfl
  | cons e events ih =>
    by_cases hallow : scope.allows e.sourceId e.kind = true
    · by_cases hbig : s.hardCapBytes < approxSemanticSize e.semantic
      · have hexcess : softExcess s scope (e::events) = 0 := by
          simp [softExcess,passes,hallow,hbig]
        rw [hexcess]
        simp only [checkEvents,wsCheckEvents,hallow,hbig,Bool.not_true,Bool.false_eq_true,if_false,
          if_true]
        rfl
      · have hpass : passes s scope e = true := by simpa [passes,hallow] using hbig
        have hexcess : softExcess s scope (e::events) = softExcess s scope events+
            if s.softCapBytes < approxSemanticSize e.semantic then 1 else 0 := by
          simp [softExcess,hpass,List.countP_cons]
        have hcount : (if s.softCapBytes < approxSemanticSize e.semantic then m.incOversizedSoft else m) =
            m.addSoft (if s.softCapBytes < approxSemanticSize e.semantic then 1 else 0) := by
          split <;> rfl
        rw [hexcess]
        simp only [checkEvents,wsCheckEvents,hallow,hbig,Bool.not_true,Bool.false_eq_true,if_false]
        rw [hcount,ih,wsCheckEvents_addSoft,addSoft_addSoft,Nat.add_comm]
    · have hexcess : softExcess s scope (e::events) = 0 := by
        simp [softExcess,passes,hallow]
      rw [hexcess]
      simp only [checkEvents,wsCheckEvents,hallow,Bool.not_false,if_true]
      rfl

theorem rateShed_addSoft (events : List IngestEvent) (m : Metrics) (n : ℕ) :
    rateShed scope nowMs events (m.addSoft n) = (rateShed scope nowMs events m).addSoft n := by
  unfold rateShed
  generalize hm : m.incShed ShedReason.rateLimit.asStr (some scope.name) = m₁
  have hshed : (m.addSoft n).incShed ShedReason.rateLimit.asStr (some scope.name) = m₁.addSoft n := by
    rw [← hm]
    rfl
  rw [hshed]
  clear hm hshed
  induction events generalizing m₁ with
  | nil => rfl
  | cons e events ih =>
    exact ih (m₁.incSourceError e.sourceId ShedReason.rateLimit.asStr nowMs)

/-- What a payload has over the soft cap. -/
def payloadExcess (s : HttpState) (scope : TokenScope) (body : Except String Json) : ℕ :=
  match parsePayload s.ulid body with
  | .error _ => 0
  | .ok events => softExcess s scope events

/-- The same events to send, or answers with the same reason. -/
def SameVerdict : Except Response (List IngestEvent) → Except WsFrame (List IngestEvent) → Prop
  | .ok events, .ok events' => events = events'
  | .error resp, .error frame => resp.shedReason = frame.shedReason
  | _, _ => False

theorem admit_agrees (s : HttpState) (scope : TokenScope) (body : Except String Json) (nowMs : Int64) :
    SameVerdict (httpAdmit s scope body nowMs).1 (wsAdmit s scope body nowMs).1 ∧
      (httpAdmit s scope body nowMs).2 =
        (wsAdmit s scope body nowMs).2.addSoft (payloadExcess s scope body) := by
  unfold httpAdmit wsAdmit payloadExcess
  cases parsePayload s.ulid body with
  | error e => exact ⟨rfl,rfl⟩
  | ok events =>
    cases events with
    | nil => exact ⟨rfl,rfl⟩
    | cons e events =>
      simp only [checkEvents_eq]
      rcases wsCheckEvents s scope nowMs (e::events) s.metrics with ⟨_ | reason,m⟩
      · cases scope.checkRate with
        | none => exact ⟨rfl,rfl⟩
        | some wait => exact ⟨rfl,rateShed_addSoft _ _ _⟩
      · exact ⟨rfl,rfl⟩

theorem enqueue_agrees (scope : TokenScope) (nowMs : Int64) (between : Interference)
    (events : List IngestEvent) (accepted : ℕ) (m : Metrics) (n : ℕ) (tx : Channel Posted) :
    (enqueue scope nowMs between events accepted (m.addSoft n) tx).2 =
        ((wsEnqueue scope nowMs between events accepted m tx).2.1.addSoft n,
          (wsEnqueue scope nowMs between events accepted m tx).2.2) ∧
      (enqueue scope nowMs between events accepted (m.addSoft n) tx).1.shedReason =
        (wsEnqueue scope nowMs between events accepted m tx).1.findSome? WsFrame.shedReason := by
  induction events generalizing accepted tx with
  | nil =>
    refine ⟨rfl,?_⟩
    simp only [enqueue,wsEnqueue]
    split <;> rfl
  | cons e events ih =>
    simp only [enqueue,wsEnqueue]
    cases (tx.run ((between accepted).map foreign)).trySend ⟨true,scope.envelope e⟩ with
    | ok tx' => exact ih (accepted+1) tx'
    | error failure =>
      cases failure with
      | full => exact ⟨rfl,rfl⟩
      | closed => exact ⟨rfl,rfl⟩

theorem authenticate_bearer {auth : Auth} {token : String} (h : auth.byToken token = some scope) :
    authenticate auth (some ("Bearer " ++ token)) = .ok scope := by
  have hstrip : stripPrefix "Bearer " ("Bearer " ++ token) = some token := by
    simp [stripPrefix,String.toList_append]
  simp [authenticate,hstrip,h]

/-- The two handlers leave the channel and the counters the same and shed for the same reason. -/
structure SameAdmission (http : Response × HttpState) (ws : List WsFrame × HttpState) : Prop where
  channel : http.2.tx = ws.2.tx
  shed : http.1.shedReason = ws.1.findSome? WsFrame.shedReason
  metrics : http.2.metrics = ws.2.metrics

/-- They differ in the count of the events over the soft cap and in nothing else. -/
theorem wsMessage_agrees {token : String} (h : wsOpen s token = some scope)
    (body : Except String Json) (nowMs : Int64) (between : Interference) :
    (ingest s ⟨some ("Bearer " ++ token),body⟩ nowMs between).2.tx =
        (wsMessage s scope body nowMs between).2.tx ∧
      (ingest s ⟨some ("Bearer " ++ token),body⟩ nowMs between).1.shedReason =
        (wsMessage s scope body nowMs between).1.findSome? WsFrame.shedReason ∧
      (ingest s ⟨some ("Bearer " ++ token),body⟩ nowMs between).2.metrics =
        (wsMessage s scope body nowMs between).2.metrics.addSoft (payloadExcess s scope body) := by
  rw [ingest_eq (authenticate_bearer h)]
  obtain ⟨hverdict,hmetrics⟩ := admit_agrees s scope body nowMs
  simp only [wsMessage]
  rcases haccept : httpAdmit s scope body nowMs with ⟨resp | events,m⟩
  · rcases hws : wsAdmit s scope body nowMs with ⟨frame | events',m'⟩
    · simp only [haccept,hws,SameVerdict] at hverdict hmetrics
      refine ⟨rfl,?_,hmetrics⟩
      simp only [hverdict]
      cases frame <;> rfl
    · simp only [haccept,hws,SameVerdict] at hverdict
  · rcases hws : wsAdmit s scope body nowMs with ⟨frame | events',m'⟩
    · simp only [haccept,hws,SameVerdict] at hverdict
    · simp only [haccept,hws,SameVerdict] at hverdict hmetrics
      obtain ⟨hstate,hshed⟩ := enqueue_agrees scope nowMs between events 0 m'
        (payloadExcess s scope body) s.tx
      subst hverdict hmetrics
      exact ⟨(congrArg Prod.snd hstate :),hshed,(congrArg Prod.fst hstate :)⟩

theorem payloadExcess_eq_zero_iff {body : Except String Json} : payloadExcess s scope body = 0 ↔
    ∀ events, parsePayload s.ulid body = .ok events → ∀ e ∈ events.takeWhile (passes s scope),
      approxSemanticSize e.semantic ≤ s.softCapBytes := by
  unfold payloadExcess
  cases hparse : parsePayload s.ulid body with
  | error e => simp
  | ok events => simp [softExcess,List.countP_eq_zero]

/-- HTTP and WebSocket admit the same exactly when no event before the first that fails a check
is over the soft cap. -/
theorem http_ws_agree_iff {token : String} (h : wsOpen s token = some scope)
    (body : Except String Json) (nowMs : Int64) (between : Interference) :
    SameAdmission (ingest s ⟨some ("Bearer " ++ token),body⟩ nowMs between)
        (wsMessage s scope body nowMs between) ↔
      ∀ events, parsePayload s.ulid body = .ok events → ∀ e ∈ events.takeWhile (passes s scope),
        approxSemanticSize e.semantic ≤ s.softCapBytes := by
  obtain ⟨htx,hshed,hmetrics⟩ := wsMessage_agrees h body nowMs between
  rw [← payloadExcess_eq_zero_iff,← addSoft_eq_self_iff,← hmetrics]
  exact ⟨fun hsame => hsame.metrics,fun hm => ⟨htx,hshed,hm⟩⟩

end

/-- Room on the bus, and caps of ten and a hundred bytes. -/
def smallCaps : HttpState where
  ulid := ⟨fun _ => "",fun _ => none⟩
  auth := ⟨fun token => if token = "t" then some ⟨"cams",fun _ => true,fun _ => true,none⟩ else none⟩
  hardCapBytes := 100
  softCapBytes := 10
  metrics := .new
  tx := .new 4

def stateText (text : String) : Except String Json := .ok (.object [("source_id",.string "cam"),
  ("kind",.string "frame"),("ts_ms_utc",.ofInt64 5),("semantic",.string text)])

/-- Both count a small event the same. -/
theorem http_ws_agree_small : SameAdmission
    (ingest smallCaps ⟨some ("Bearer " ++ "t"),stateText "on"⟩ 0 fun _ => [])
    (wsMessage smallCaps ⟨"cams",fun _ => true,fun _ => true,none⟩ (stateText "on") 0 fun _ => []) := by
  refine (http_ws_agree_iff rfl (stateText "on") 0 fun _ => []).mpr fun events hevents => ?_
  obtain rfl := Except.ok.inj hevents
  decide

/-- An event of 13 bytes is counted by HTTP only. -/
theorem http_ws_agree_fails : ¬SameAdmission
    (ingest smallCaps ⟨some ("Bearer " ++ "t"),stateText "person left"⟩ 0 fun _ => [])
    (wsMessage smallCaps ⟨"cams",fun _ => true,fun _ => true,none⟩ (stateText "person left") 0
      fun _ => []) := fun h =>
  absurd (congrArg Metrics.oversizedSoftTotal h.metrics) (by decide)

end Percept
