import Percept.Client

/-! The two producer clients side by side, each loop written as its own source file has it. A call
is followed through everything it does: the requests it sends, its sleeps and its result. -/
namespace Percept

/-- A response as a client reads it; `text` and `json` are the two readings of its body. -/
structure HttpReply where
  status : ℕ
  shedReason : Option String
  retryAfter : Option String
  text : Except String String
  json : Except String ℕ

/-- A response of the server, read by a client. -/
def Response.toHttpReply (r : Response) : HttpReply where
  status := r.status
  shedReason := r.shedReason
  retryAfter := r.retryAfter
  text := .ok r.body.toText
  json := match r.body with
    | .text _ => .error "error decoding response body"
    | .accepted n => .ok n

structure PostRequest where
  url : String
  authorization : String
  contentType : String
  contentEncoding : Option String
  body : ByteArray

/-- What a call does. -/
structure Call where
  result : Except ClientError ℕ
  requests : List PostRequest
  sleeps : List Duration

/-- The call ends with this request. -/
def Call.last (req : PostRequest) (result : Except ClientError ℕ) : Call := ⟨result,[req],[]⟩

/-- After this request the call sleeps and goes on. -/
def Call.then (req : PostRequest) (wait : Duration) (rest : Call) : Call :=
  ⟨rest.result,req::rest.requests,wait::rest.sleeps⟩

/-- The asynchronous client. `gzip` is a field of the source's configuration. -/
structure Client where
  baseUrl : String
  bearer : String
  gzip : Bool
  config : ClientConfig

namespace Client

/-- `GzEncoder` is a parameter. -/
def body (c : Client) (encoder : ByteArray → ByteArray) (ulid : UlidText)
    (events : List ClientEvent) : ByteArray :=
  let bodyJson := (envelope ulid events).toText.toUTF8
  if c.gzip then encoder bodyJson else bodyJson

def request (c : Client) (body : ByteArray) : PostRequest where
  url := c.baseUrl ++ "/ingest"
  authorization := "Bearer " ++ c.bearer
  contentType := "application/json"
  contentEncoding := if c.gzip then some "gzip" else none
  body := body

/-- `match status`, by the named status codes. -/
def onReply (config : ClientConfig) (attempt : ℕ) (resp : HttpReply) : Attempt :=
  let shedReason := headerStr resp.shedReason
  let retryAfter := parseRetryAfter resp.retryAfter
  if resp.status = 200 then .done (resp.json.mapError .network)
  else if resp.status = 401 then .done (.error .unauthorized)
  else if (resp.status = 429 ∨ resp.status = 503) ∧ attempt+1 < config.maxAttempts then
    if shedReason = some "unauthorized" then .done (.error .scopeDeny)
    else if shedReason = some "payload_too_large" then .done (.error .payloadTooLarge)
    else .again ((retryAfter.getD config.defaultRetryAfter).min config.maxRetryAfter)
  else if resp.status = 413 then .done (.error .payloadTooLarge)
  -- `is_client_error`
  else if 400 ≤ resp.status ∧ resp.status < 500 then
    .done (.error (.badRequest resp.status (resp.text.toOption.getD "")))
  else .done (.error (.serverError resp.status (resp.text.toOption.getD "")))

/-- The loop from one attempt on; `server i` is what sending the `i`-th request gives. -/
def attempts (c : Client) (body : ByteArray) (server : ℕ → Except String HttpReply) (attempt : ℕ) :
    ℕ → ℕ → Option Duration → Call
  | 0, lastStatus, lastRetryAfter =>
    ⟨.error (.retriesExhausted c.config.maxAttempts lastStatus lastRetryAfter),[],[]⟩
  | left+1, _, _ =>
    match server attempt with
    | .error e => .last (c.request body) (.error (.network e))
    | .ok resp => match onReply c.config attempt resp with
      | .done result => .last (c.request body) result
      | .again wait => .then (c.request body) wait
          (attempts c body server (attempt+1) left resp.status (parseRetryAfter resp.retryAfter))

def sendBatch (c : Client) (encoder : ByteArray → ByteArray) (ulid : UlidText)
    (server : ℕ → Except String HttpReply) (events : List ClientEvent) : Call :=
  if events.isEmpty then ⟨.ok 0,[],[]⟩
  else attempts c (c.body encoder ulid events) server 0 c.config.maxAttempts 0 none

end Client

/-- The blocking client. -/
structure BlockingClient where
  baseUrl : String
  bearer : String
  gzip : Bool
  config : ClientConfig

namespace BlockingClient

def body (c : BlockingClient) (encoder : ByteArray → ByteArray) (ulid : UlidText)
    (events : List ClientEvent) : ByteArray :=
  let bodyJson := (envelope ulid events).toText.toUTF8
  if c.gzip then encoder bodyJson else bodyJson

def request (c : BlockingClient) (body : ByteArray) : PostRequest where
  url := c.baseUrl ++ "/ingest"
  authorization := "Bearer " ++ c.bearer
  contentType := "application/json"
  contentEncoding := if c.gzip then some "gzip" else none
  body := body

/-- The header chain that the loop has in place of `parse_retry_after`. -/
def retryAfter (resp : HttpReply) : Option Duration :=
  (((resp.retryAfter.filter fun s => s.toList.all isVisible).bind fun s =>
    parseUnsigned 64 (trim s)).map UInt64.ofNat).map .fromSecs

/-- `match status.as_u16()`: 413 stands before the retried codes, and the client errors are a range
of numbers. -/
def onReply (config : ClientConfig) (attempt : ℕ) (resp : HttpReply) : Attempt :=
  let shedReason := resp.shedReason.filter fun s => s.toList.all isVisible
  if resp.status = 200 then .done (resp.json.mapError .network)
  else if resp.status = 401 then .done (.error .unauthorized)
  else if resp.status = 413 then .done (.error .payloadTooLarge)
  else if (resp.status = 429 ∨ resp.status = 503) ∧ attempt+1 < config.maxAttempts then
    if shedReason = some "unauthorized" then .done (.error .scopeDeny)
    else if shedReason = some "payload_too_large" then .done (.error .payloadTooLarge)
    else .again (((retryAfter resp).getD config.defaultRetryAfter).min config.maxRetryAfter)
  else if 400 ≤ resp.status ∧ resp.status ≤ 499 then
    .done (.error (.badRequest resp.status (resp.text.toOption.getD "")))
  else .done (.error (.serverError resp.status (resp.text.toOption.getD "")))

def attempts (c : BlockingClient) (body : ByteArray) (server : ℕ → Except String HttpReply)
    (attempt : ℕ) : ℕ → ℕ → Option Duration → Call
  | 0, lastStatus, lastRetryAfter =>
    ⟨.error (.retriesExhausted c.config.maxAttempts lastStatus lastRetryAfter),[],[]⟩
  | left+1, _, _ =>
    match server attempt with
    | .error e => .last (c.request body) (.error (.network e))
    | .ok resp => match onReply c.config attempt resp with
      | .done result => .last (c.request body) result
      | .again wait => .then (c.request body) wait
          (attempts c body server (attempt+1) left resp.status (retryAfter resp))

def sendBatch (c : BlockingClient) (encoder : ByteArray → ByteArray) (ulid : UlidText)
    (server : ℕ → Except String HttpReply) (events : List ClientEvent) : Call :=
  if events.isEmpty then ⟨.ok 0,[],[]⟩
  else attempts c (c.body encoder ulid events) server 0 c.config.maxAttempts 0 none

/-- The asynchronous client that was built from the same arguments. -/
def toAsync (c : BlockingClient) : Client := ⟨c.baseUrl,c.bearer,c.gzip,c.config⟩

@[simp] theorem toAsync_config (c : BlockingClient) : c.toAsync.config = c.config := rfl

theorem retryAfter_eq (resp : HttpReply) : retryAfter resp = parseRetryAfter resp.retryAfter := by
  unfold retryAfter parseRetryAfter headerStr
  rw [Option.map_map,Option.map_bind]
  rfl

/-- No status matches two arms that the sources have in a different order. -/
theorem onReply_eq (config : ClientConfig) (attempt : ℕ) (resp : HttpReply) :
    onReply config attempt resp = Client.onReply config attempt resp := by
  unfold onReply Client.onReply
  rw [retryAfter_eq]
  have hrange : (400 ≤ resp.status ∧ resp.status ≤ 499) ↔
      (400 ≤ resp.status ∧ resp.status < 500) := by omega
  by_cases h413 : resp.status = 413
  · simp [h413]
  · simp only [h413,hrange,if_false]
    rfl

theorem attempts_eq (c : BlockingClient) (body : ByteArray) (server : ℕ → Except String HttpReply)
    (attempt left lastStatus : ℕ) (lastRetryAfter : Option Duration) :
    c.attempts body server attempt left lastStatus lastRetryAfter =
      c.toAsync.attempts body server attempt left lastStatus lastRetryAfter := by
  induction left generalizing attempt lastStatus lastRetryAfter with
  | zero => rfl
  | succ left ih =>
    unfold attempts Client.attempts
    cases server attempt with
    | error e => rfl
    | ok resp =>
      dsimp only
      rw [onReply_eq,retryAfter_eq,toAsync_config]
      cases Client.onReply c.config attempt resp with
      | done result => rfl
      | again wait => exact congrArg (Call.then (c.request body) wait) (ih _ _ _)

end BlockingClient

/-- Both clients send the same requests, sleep the same times and give the same result, whatever
they are sent. -/
theorem blocking_send_batch_eq (c : BlockingClient) (encoder : ByteArray → ByteArray)
    (ulid : UlidText) (server : ℕ → Except String HttpReply) (events : List ClientEvent) :
    c.sendBatch encoder ulid server events = c.toAsync.sendBatch encoder ulid server events := by
  unfold BlockingClient.sendBatch Client.sendBatch
  rw [c.attempts_eq]
  rfl

section

variable (c : Client) (encoder : ByteArray → ByteArray) (ulid : UlidText)

theorem onReply_toHttpReply (config : ClientConfig) (attempt : ℕ) (r : Response) :
    Client.onReply config attempt r.toHttpReply = config.onResponse attempt r := by
  have hjson : r.toHttpReply.json.mapError .network = r.body.ingestOk := by
    unfold Response.toHttpReply
    cases r.body <;> rfl
  unfold Client.onReply ClientConfig.onResponse
  rw [hjson]
  rfl

/-- Every request of a call carries the same body. -/
theorem attempts_requests (body : ByteArray) (server : ℕ → Except String HttpReply)
    (attempt left lastStatus : ℕ) (lastRetryAfter : Option Duration) :
    ∀ req ∈ (c.attempts body server attempt left lastStatus lastRetryAfter).requests,
      req = c.request body := by
  induction left generalizing attempt lastStatus lastRetryAfter with
  | zero => simp [Client.attempts]
  | succ left ih =>
    unfold Client.attempts
    cases server attempt with
    | error e => simp [Call.last]
    | ok resp =>
      cases hnext : Client.onReply c.config attempt resp with
      | done result => simp [Call.last,hnext]
      | again wait =>
        simp only [hnext,Call.then,List.mem_cons]
        rintro req (rfl | hreq)
        · rfl
        · exact ih _ _ _ req hreq

/-- On responses of the server the call is the loop over responses. -/
theorem attempts_toHttpReply (body : ByteArray) (server : ℕ → Response) (attempt left lastStatus : ℕ)
    (lastRetryAfter : Option Duration) :
    let call := c.attempts body (fun i => .ok (server i).toHttpReply) attempt left lastStatus lastRetryAfter
    let s := sendFrom c.config server attempt left lastStatus lastRetryAfter
    call.result = s.result ∧ call.requests.length = s.responses.length ∧ call.sleeps = s.sleeps := by
  induction left generalizing attempt lastStatus lastRetryAfter with
  | zero => exact ⟨rfl,rfl,rfl⟩
  | succ left ih =>
    unfold Client.attempts sendFrom
    dsimp only
    rw [onReply_toHttpReply]
    cases c.config.onResponse attempt (server attempt) with
    | done result => exact ⟨rfl,rfl,rfl⟩
    | again wait =>
      obtain ⟨hresult,hrequests,hsleeps⟩ := ih (attempt+1) (server attempt).status
        (parseRetryAfter (server attempt).retryAfter)
      exact ⟨hresult,congrArg (·+1) hrequests,congrArg (wait :: ·) hsleeps⟩

end

end Percept
