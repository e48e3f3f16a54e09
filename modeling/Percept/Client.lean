import Percept.Http
import Percept.Mqtt
import Percept.Retention

/-! The producer's client. A batch is posted again after a 429 or a 503 for as long as attempts are
left; every other status, and these two on the last attempt, end the call. -/
namespace Percept

/-- The length of a duration. Its nanoseconds are below a second, so `Ord` compares lengths. -/
def Duration.asNanos (d : Duration) : ℕ := d.secs.toNat*10^9+d.subsecNanos.toNat

/-- `Ord::min`. -/
def Duration.min (a b : Duration) : Duration := if a.asNanos ≤ b.asNanos then a else b

theorem Duration.asNanos_min_le (a b : Duration) : (a.min b).asNanos ≤ b.asNanos := by
  unfold Duration.min
  split_ifs with h
  · exact h
  · exact le_rfl

structure ClientConfig where
  maxAttempts : ℕ := 4
  maxRetryAfter : Duration := .fromSecs 30
  defaultRetryAfter : Duration := ⟨0,200000000⟩

inductive ClientError
  | network (error : String)
  | serialize (error : String)
  | unauthorized
  | badRequest (status : ℕ) (body : String)
  | payloadTooLarge
  | scopeDeny
  | retriesExhausted (attempts lastStatus : ℕ) (lastRetryAfter : Option Duration)
  | serverError (status : ℕ) (body : String)
  deriving DecidableEq

/-- `HeaderValue::to_str` gives only visible ASCII text. -/
def isVisible (c : Char) : Bool := c = '\t' || 32 ≤ c.toNat && c.toNat < 127

def headerStr (h : Option String) : Option String := h.filter fun s => s.toList.all isVisible

def parseRetryAfter (h : Option String) : Option Duration :=
  (headerStr h).bind fun raw => (parseUnsigned 64 (trim raw)).map fun n => .fromSecs (.ofNat n)

/-- `resp.text()`. -/
def Body.toText : Body → String
  | .text s => s
  | .accepted n => "\x7b\"accepted\":" ++ toString n ++ "\x7d"

/-- `resp.json()`. -/
def Body.ingestOk : Body → Except ClientError ℕ
  | .text _ => .error (.network "error decoding response body")
  | .accepted n => .ok n

/-- One turn of the loop: the call ends, or it goes on after a sleep. -/
inductive Attempt
  | done (result : Except ClientError ℕ)
  | again (wait : Duration)

namespace ClientConfig

/-- `match status`. -/
def onResponse (cfg : ClientConfig) (attempt : ℕ) (resp : Response) : Attempt :=
  let shedReason := headerStr resp.shedReason
  let retryAfter := parseRetryAfter resp.retryAfter
  if resp.status = 200 then .done resp.body.ingestOk
  else if resp.status = 401 then .done (.error .unauthorized)
  else if (resp.status = 429 ∨ resp.status = 503) ∧ attempt+1 < cfg.maxAttempts then
    if shedReason = some "unauthorized" then .done (.error .scopeDeny)
    else if shedReason = some "payload_too_large" then .done (.error .payloadTooLarge)
    else .again ((retryAfter.getD cfg.defaultRetryAfter).min cfg.maxRetryAfter)
  else if resp.status = 413 then .done (.error .payloadTooLarge)
  else if 400 ≤ resp.status ∧ resp.status < 500 then
    .done (.error (.badRequest resp.status resp.body.toText))
  else .done (.error (.serverError resp.status resp.body.toText))

end ClientConfig

/-- What a call gave, with the responses it received and the times it slept. -/
structure Sending where
  result : Except ClientError ℕ
  responses : List Response
  sleeps : List Duration

/-- The loop from one attempt on; `server i` is the response to the `i`-th request. -/
def sendFrom (cfg : ClientConfig) (server : ℕ → Response) (attempt : ℕ) :
    ℕ → ℕ → Option Duration → Sending
  | 0, lastStatus, lastRetryAfter =>
    ⟨.error (.retriesExhausted cfg.maxAttempts lastStatus lastRetryAfter),[],[]⟩
  | left+1, _, _ =>
    let resp := server attempt
    match cfg.onResponse attempt resp with
    | .done result => ⟨result,[resp],[]⟩
    | .again wait =>
      let rest := sendFrom cfg server (attempt+1) left resp.status (parseRetryAfter resp.retryAfter)
      ⟨rest.result,resp::rest.responses,wait::rest.sleeps⟩

/-- `Client::send_batch`. -/
def sendBatch (cfg : ClientConfig) (server : ℕ → Response) (events : List ClientEvent) : Sending :=
  if events.isEmpty then ⟨.ok 0,[],[]⟩ else sendFrom cfg server 0 cfg.maxAttempts 0 none

namespace Response

/-- Too many requests, or service unavailable. -/
def Busy (r : Response) : Prop := r.status = 429 ∨ r.status = 503

/-- The shed reason as the client reads it. -/
def reason (r : Response) : Option String := headerStr r.shedReason

/-- Worth another attempt. -/
structure Retryable (r : Response) : Prop where
  busy : r.Busy
  allowed : r.reason ≠ some "unauthorized"
  fits : r.reason ≠ some "payload_too_large"

end Response

/-- The outcome of a call that sends something says what it received. -/
structure Classified (cfg : ClientConfig) (s : Sending) : Prop where
  attempts : s.responses.length ≤ cfg.maxAttempts
  resent : ∀ r ∈ s.responses.dropLast, r.Retryable
  scopeDeny : s.result = .error .scopeDeny ↔
    ∃ r ∈ s.responses, r.Busy ∧ r.reason = some "unauthorized"
  payloadTooLarge : s.result = .error .payloadTooLarge ↔
    ∃ r ∈ s.responses, r.status = 413 ∨ r.Busy ∧ r.reason = some "payload_too_large"
  unauthorized : s.result = .error .unauthorized ↔ ∃ r ∈ s.responses, r.status = 401
  exhausted : (∃ attempts lastStatus lastRetryAfter,
      s.result = .error (.retriesExhausted attempts lastStatus lastRetryAfter)) ↔
    s.responses.length = cfg.maxAttempts ∧ ∀ r ∈ s.responses, r.Retryable
  slept : (s.sleeps.map Duration.asNanos).sum ≤ (cfg.maxAttempts-1)*cfg.maxRetryAfter.asNanos

section Loop

variable {cfg : ClientConfig} {attempt k : ℕ} {r : Response} {result : Except ClientError ℕ}
  {server : ℕ → Response} {s : Sending}

theorem onResponse_again {wait : Duration} (h : cfg.onResponse attempt r = .again wait) :
    r.Retryable ∧ attempt+1 < cfg.maxAttempts ∧ wait.asNanos ≤ cfg.maxRetryAfter.asNanos := by
  unfold ClientConfig.onResponse at h
  dsimp only at h
  split_ifs at h with h200 h401 hbusy hscope hsize
  cases h
  exact ⟨⟨hbusy.1,hscope,hsize⟩,hbusy.2,Duration.asNanos_min_le _ _⟩

/-- What a response means that ends the call. -/
structure Ends (cfg : ClientConfig) (attempt : ℕ) (r : Response) (result : Except ClientError ℕ) :
    Prop where
  notRetried : ¬(r.Retryable ∧ attempt+1 < cfg.maxAttempts)
  scopeDeny : result = .error .scopeDeny ↔
    (r.Busy ∧ attempt+1 < cfg.maxAttempts) ∧ r.reason = some "unauthorized"
  payloadTooLarge : result = .error .payloadTooLarge ↔
    r.status = 413 ∨ (r.Busy ∧ attempt+1 < cfg.maxAttempts) ∧ r.reason = some "payload_too_large"
  unauthorized : result = .error .unauthorized ↔ r.status = 401
  notExhausted : ∀ attempts lastStatus lastRetryAfter,
    result ≠ .error (.retriesExhausted attempts lastStatus lastRetryAfter)

theorem Response.Busy.status (h : r.Busy) : r.status ≠ 200 ∧ r.status ≠ 401 ∧ r.status ≠ 413 := by
  rcases h with h | h <;> omega

/-- An outcome that speaks of no response in particular. -/
def Unspecific : Except ClientError ℕ → Prop
  | .ok _ | .error (.network _) | .error (.badRequest _ _) | .error (.serverError _ _) => True
  | _ => False

theorem Unspecific.ends (h : Unspecific result) (hbusy : ¬(r.Busy ∧ attempt+1 < cfg.maxAttempts))
    (h401 : r.status ≠ 401) (h413 : r.status ≠ 413) : Ends cfg attempt r result := by
  have hne : ∀ e, (e = .scopeDeny ∨ e = .payloadTooLarge ∨ e = .unauthorized ∨
      ∃ n status retryAfter, e = .retriesExhausted n status retryAfter) → result ≠ .error e := by
    rintro e (rfl | rfl | rfl | ⟨_,_,_,rfl⟩) rfl <;> exact h
  refine ⟨fun hretry => hbusy ⟨hretry.1.busy,hretry.2⟩,?_,?_,?_,fun _ _ _ => hne _ (by simp)⟩
  · exact iff_of_false (hne _ (by simp)) fun hdeny => hbusy hdeny.1
  · refine iff_of_false (hne _ (by simp)) ?_
    rintro (hstatus | hsize)
    · exact h413 hstatus
    · exact hbusy hsize.1
  · exact iff_of_false (hne _ (by simp)) h401

theorem onResponse_done (h : cfg.onResponse attempt r = .done result) : Ends cfg attempt r result := by
  have hstatus := fun hbusy : r.Busy => hbusy.status
  unfold ClientConfig.onResponse at h
  dsimp only at h
  split_ifs at h with h200 h401 hbusy hscope hsize h413 h4xx <;> obtain rfl := Attempt.done.inj h
  · have hplain : Unspecific r.body.ingestOk := by cases r.body <;> trivial
    exact hplain.ends (fun hbusy => (hstatus hbusy.1).1 h200) (by omega) (by omega)
  · have hnot : ¬r.Busy := fun hbusy => (hstatus hbusy).2.1 h401
    exact ⟨fun h => hnot h.1.busy,by simp [hnot],by simp [hnot,h401],by simp [h401],by simp⟩
  · have hreason : r.reason = some "unauthorized" := hscope
    have h413 := (hstatus hbusy.1).2.2
    exact ⟨fun h => h.1.allowed hreason,by simp [Response.Busy,hbusy,hreason],by simp [hreason,h413],
      by simp [h401],by simp⟩
  · have hreason : r.reason = some "payload_too_large" := hsize
    exact ⟨fun h => h.1.fits hreason,by simp [hreason],by simp [Response.Busy,hbusy,hreason],
      by simp [h401],by simp⟩
  · have hnot : ¬r.Busy := fun hbusy => (hstatus hbusy).2.2 h413
    exact ⟨fun h => hnot h.1.busy,by simp [hnot],by simp [h413],by simp [h401],by simp⟩
  -- any other status, and a busy server on the last attempt
  · exact Unspecific.ends trivial hbusy h401 h413
  · exact Unspecific.ends trivial hbusy h401 h413

/-- A call that sent so many requests before its last one. -/
structure EndsAfter (cfg : ClientConfig) (server : ℕ → Response) (attempt k : ℕ) (s : Sending) :
    Prop where
  responses : s.responses = (List.range' attempt (k+1)).map server
  retried : ∀ i < k, (server (attempt+i)).Retryable
  last : Ends cfg (attempt+k) (server (attempt+k)) s.result
  sleeps : s.sleeps.length = k
  capped : ∀ d ∈ s.sleeps, d.asNanos ≤ cfg.maxRetryAfter.asNanos

/-- The last allowed attempt ends the call, so the loop never runs out. -/
theorem sendFrom_ends (cfg : ClientConfig) (server : ℕ → Response) {left : ℕ} (hleft : 0 < left)
    (hattempt : attempt+left = cfg.maxAttempts) (lastStatus : ℕ) (lastRetryAfter : Option Duration) :
    ∃ k < left, EndsAfter cfg server attempt k
      (sendFrom cfg server attempt left lastStatus lastRetryAfter) := by
  induction left generalizing attempt lastStatus lastRetryAfter with
  | zero => exact absurd hleft (lt_irrefl 0)
  | succ left ih =>
    unfold sendFrom
    dsimp only
    cases hresp : cfg.onResponse attempt (server attempt) with
    | done result =>
      exact ⟨0,hleft,rfl,fun i hi => absurd hi (Nat.not_lt_zero i),onResponse_done hresp,rfl,
        fun d hd => absurd hd List.not_mem_nil⟩
    | again wait =>
      obtain ⟨hretry,hmore,hwait⟩ := onResponse_again hresp
      have hnext : attempt+1+left = cfg.maxAttempts := by omega
      obtain ⟨k,hk,hrest⟩ := ih (by omega) hnext (server attempt).status
        (parseRetryAfter (server attempt).retryAfter)
      have hshift : attempt+1+k = attempt+(k+1) := by omega
      refine ⟨k+1,Nat.succ_lt_succ hk,?_,fun i hi => ?_,?_,?_,fun d hd => ?_⟩
      · rw [List.range'_succ,List.map_cons,hrest.responses]
      · cases i with
        | zero => exact hretry
        | succ i =>
          rw [← Nat.add_assoc,Nat.add_right_comm]
          exact hrest.retried i (Nat.lt_of_succ_lt_succ hi)
      · rw [← hshift]
        exact hrest.last
      · rw [List.length_cons,hrest.sleeps]
      · rcases List.mem_cons.mp hd with rfl | hd
        · exact hwait
        · exact hrest.capped d hd

theorem EndsAfter.mem_iff (h : EndsAfter cfg server 0 k s) :
    r ∈ s.responses ↔ ∃ i ≤ k, server i = r := by
  simp [h.responses]

/-- What the retried responses do not have, the last one has. -/
theorem EndsAfter.exists_iff (h : EndsAfter cfg server 0 k s) {P : Response → Prop}
    (hP : ∀ r, r.Retryable → ¬P r) : (∃ r ∈ s.responses, P r) ↔ P (server k) := by
  constructor
  · rintro ⟨r,hr,hPr⟩
    obtain ⟨i,hle,rfl⟩ := h.mem_iff.mp hr
    rcases hle.lt_or_eq with hlt | rfl
    · have hretry := h.retried i hlt
      rw [Nat.zero_add] at hretry
      exact absurd hPr (hP _ hretry)
    · exact hPr
  · intro hPk
    exact ⟨server k,h.mem_iff.mpr ⟨k,le_rfl,rfl⟩,hPk⟩

theorem EndsAfter.classified (h : EndsAfter cfg server 0 k s) (hk : k < cfg.maxAttempts)
    (hbusy : (server k).Busy → k+1 < cfg.maxAttempts) : Classified cfg s := by
  have hlast := h.last
  rw [Nat.zero_add] at hlast
  have hguard : ((server k).Busy ∧ k+1 < cfg.maxAttempts) ↔ (server k).Busy :=
    and_iff_left_of_imp hbusy
  refine ⟨?_,fun r hr => ?_,?_,?_,?_,?_,?_⟩
  · simpa [h.responses] using hk
  · rw [h.responses,List.range'_concat,List.map_append,List.map_singleton,List.dropLast_concat] at hr
    obtain ⟨i,hi,rfl⟩ := List.mem_map.mp hr
    have hretry := h.retried i (by simpa using hi)
    rwa [Nat.zero_add] at hretry
  · rw [hlast.scopeDeny,hguard,h.exists_iff fun r hr hreason => hr.allowed hreason.2]
  · rw [hlast.payloadTooLarge,hguard,h.exists_iff]
    rintro r hr (h413 | hreason)
    · exact hr.busy.status.2.2 h413
    · exact hr.fits hreason.2
  · rw [hlast.unauthorized,h.exists_iff fun r hr h401 => hr.busy.status.2.1 h401]
  · refine iff_of_false (fun ⟨_,_,_,hexhausted⟩ => hlast.notExhausted _ _ _ hexhausted) ?_
    rintro ⟨_,hall⟩
    have hretry := hall (server k) (h.mem_iff.mpr ⟨k,le_rfl,rfl⟩)
    exact hlast.notRetried ⟨hretry,hbusy hretry.busy⟩
  · have hsum := List.sum_le_card_nsmul (s.sleeps.map Duration.asNanos) cfg.maxRetryAfter.asNanos
      fun n hn => by
        obtain ⟨d,hd,rfl⟩ := List.mem_map.mp hn
        exact h.capped d hd
    rw [List.length_map,h.sleeps,smul_eq_mul] at hsum
    exact hsum.trans (Nat.mul_le_mul_right _ (by omega))

end Loop

/-- A call is classified exactly when it does not come to its last attempt and find the server busy
there. -/
theorem send_batch_classified_iff {cfg : ClientConfig} (hmax : 1 ≤ cfg.maxAttempts)
    (server : ℕ → Response) {events : List ClientEvent} (hevents : events ≠ []) :
    Classified cfg (sendBatch cfg server events) ↔
      ¬((∀ i, i+1 < cfg.maxAttempts → (server i).Retryable) ∧ (server (cfg.maxAttempts-1)).Busy) := by
  have hcall : sendBatch cfg server events = sendFrom cfg server 0 cfg.maxAttempts 0 none :=
    if_neg (by simpa using hevents)
  obtain ⟨k,hk,hends⟩ := sendFrom_ends cfg server hmax (Nat.zero_add _) 0 none
  rw [hcall]
  have hlast := hends.last
  rw [Nat.zero_add] at hlast
  constructor
  · rintro h ⟨hretry,hbusy⟩
    have hfinal : k+1 = cfg.maxAttempts := by
      by_contra hne
      exact hlast.notRetried ⟨hretry k (by omega),by omega⟩
    obtain rfl : k = cfg.maxAttempts-1 := by omega
    have hmem : server (cfg.maxAttempts-1) ∈
        (sendFrom cfg server 0 cfg.maxAttempts 0 none).responses := hends.mem_iff.mpr ⟨_,le_rfl,rfl⟩
    have hguard : ¬((server (cfg.maxAttempts-1)).Busy ∧ cfg.maxAttempts-1+1 < cfg.maxAttempts) := by
      omega
    -- its reason is none of the two that have an error of their own
    have hallowed : (server (cfg.maxAttempts-1)).reason ≠ some "unauthorized" := fun hreason =>
      hguard (hlast.scopeDeny.mp (h.scopeDeny.mpr ⟨_,hmem,hbusy,hreason⟩)).1
    have hfits : (server (cfg.maxAttempts-1)).reason ≠ some "payload_too_large" := by
      intro hreason
      have hlarge := h.payloadTooLarge.mpr ⟨_,hmem,Or.inr ⟨hbusy,hreason⟩⟩
      rcases hlast.payloadTooLarge.mp hlarge with h413 | hsize
      · exact hbusy.status.2.2 h413
      · exact hguard hsize.1
    have hall : ∀ r ∈ (sendFrom cfg server 0 cfg.maxAttempts 0 none).responses, r.Retryable := by
      intro r hr
      obtain ⟨i,hle,rfl⟩ := hends.mem_iff.mp hr
      rcases Nat.lt_or_ge (i+1) cfg.maxAttempts with hlt | hge
      · exact hretry i hlt
      · obtain rfl : i = cfg.maxAttempts-1 := by omega
        exact ⟨hbusy,hallowed,hfits⟩
    obtain ⟨_,_,_,hexhausted⟩ := h.exhausted.mpr ⟨by simp [hends.responses,hfinal],hall⟩
    exact hlast.notExhausted _ _ _ hexhausted
  · intro hnot
    refine hends.classified hk fun hbusy => ?_
    by_contra hge
    obtain rfl : k = cfg.maxAttempts-1 := by omega
    refine hnot ⟨fun i hi => ?_,hbusy⟩
    have hretry := hends.retried i (by omega)
    rwa [Nat.zero_add] at hretry

/-- A server that is over its rate once and then accepts. -/
def busyOnce (i : ℕ) : Response :=
  if i = 0 then shedResponse .rateLimit (some (.fromSecs 1)) else ⟨200,.accepted 1,none,none⟩

theorem send_batch_classified_busy_once :
    Classified { maxAttempts := 2 } (sendBatch { maxAttempts := 2 } busyOnce [.new "s" "k" 0 .null]) := by
  refine (send_batch_classified_iff (by decide) busyOnce (List.cons_ne_nil _ _)).mpr ?_
  rintro ⟨_,hbusy | hbusy⟩
  · exact absurd hbusy (by decide)
  · exact absurd hbusy (by decide)

/-- With one attempt a refusal of any kind is a bad request. -/
theorem send_batch_misclassifies :
    (∀ reason, (sendBatch { maxAttempts := 1 } (fun _ => shedResponse reason none)
      [.new "s" "k" 0 .null]).result = .error (.badRequest 429 reason.asStr)) ∧
    ¬Classified { maxAttempts := 1 } (sendBatch { maxAttempts := 1 }
      (fun _ => shedResponse .unauthorized none) [.new "s" "k" 0 .null]) := by
  have hresult : ∀ reason, (sendBatch { maxAttempts := 1 } (fun _ => shedResponse reason none)
      [.new "s" "k" 0 .null]).result = .error (.badRequest 429 reason.asStr) := fun _ => rfl
  refine ⟨hresult,fun h => ?_⟩
  have hdeny := h.scopeDeny.mpr ⟨shedResponse .unauthorized none,List.mem_singleton.mpr rfl,
    Or.inl rfl,by decide⟩
  rw [hresult] at hdeny
  cases hdeny

end Percept
