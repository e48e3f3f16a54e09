import Percept.Client
import Percept.Startup

/-! The wait of the rate limiter on its way to the client's sleep: whole seconds in a header, the
parser, and the two clamps. -/
namespace Percept

/-- The text of the response header is digits only, so it survives `to_str` and `trim`. -/
theorem isDigit_range {c : Char} (h : c.isDigit = true) : 48 ≤ c.toNat ∧ c.toNat ≤ 57 :=
  Char.isDigit_iff_toNat.mp h

theorem isVisible_of_isDigit {c : Char} (h : c.isDigit = true) : isVisible c = true := by
  have hrange := isDigit_range h
  simp only [isVisible,Bool.or_eq_true,Bool.and_eq_true,decide_eq_true_eq]
  omega

theorem isWhiteSpace_of_isDigit {c : Char} (h : c.isDigit = true) : isWhiteSpace c = false := by
  have hrange := isDigit_range h
  simp only [isWhiteSpace,Bool.or_eq_false_iff,Bool.and_eq_false_iff,decide_eq_false_iff_not]
  omega

theorem trim_digits {s : String} (h : ∀ c ∈ s.toList, c.isDigit = true) : trim s = s.toList := by
  have hkeep : ∀ l : List Char, (∀ c ∈ l, c.isDigit = true) → l.dropWhile isWhiteSpace = l := by
    intro l hl
    cases l with
    | nil => rfl
    | cons c l =>
      exact List.dropWhile_cons_of_neg (by simp [isWhiteSpace_of_isDigit (hl c List.mem_cons_self)])
  unfold trim
  rw [hkeep _ h,hkeep _ fun c hc => h c (List.mem_reverse.mp hc),List.reverse_reverse]

theorem parseUnsigned_toString {bits n : ℕ} (h : n < 2^bits) :
    parseUnsigned bits (toString n).toList = some n := by
  have hdigits : ∀ c ∈ Nat.toDigits 10 n, c.isDigit = true := fun c hc =>
    Nat.isDigit_of_mem_toDigits (by decide) (by decide) hc
  rw [Nat.toString_eq_repr,Nat.toList_repr,parseUnsigned_eq_some_iff,withoutPlus_digits hdigits]
  refine ⟨Nat.toDigits_ne_nil,hdigits,?_,h⟩
  exact Nat.ofDigitChars_eq_foldl.symm.trans Nat.ofDigitChars_ten_toDigits

/-- The client reads the number that the server wrote. -/
theorem parseRetryAfter_toString {n : ℕ} (h : n < 2^64) :
    parseRetryAfter (some (toString n)) = some (.fromSecs (.ofNat n)) := by
  have hdigits : ∀ c ∈ (toString n).toList, c.isDigit = true := by
    intro c hc
    rw [Nat.toString_eq_repr,Nat.toList_repr] at hc
    exact Nat.isDigit_of_mem_toDigits (by decide) (by decide) hc
  have hvisible : headerStr (some (toString n)) = some (toString n) :=
    Option.filter_some_pos (List.all_eq_true.mpr fun c hc => isVisible_of_isDigit (hdigits c hc))
  rw [parseRetryAfter,hvisible,Option.bind_some,trim_digits hdigits,parseUnsigned_toString h]
  rfl

/-- The seconds announced for a wait: the fraction is cut off, and there is at least one. -/
def announced (w : Duration) : Duration := .fromSecs (.ofNat (max w.secs.toNat 1))

theorem announced_lt (w : Duration) : max w.secs.toNat 1 < 2^64 :=
  max_lt w.secs.toNat_lt (by decide)

theorem asNanos_announced (w : Duration) : (announced w).asNanos = max w.secs.toNat 1*10^9 := by
  have hsecs : (UInt64.ofNat (max w.secs.toNat 1)).toNat = max w.secs.toNat 1 :=
    UInt64.toNat_ofNat_of_lt (announced_lt w)
  simp only [announced,Duration.fromSecs,Duration.asNanos,hsecs,UInt32.toNat_zero,Nat.add_zero]

theorem parseRetryAfter_shedResponse (reason : ShedReason) (w : Duration) :
    parseRetryAfter (shedResponse reason (some w)).retryAfter = some (announced w) :=
  parseRetryAfter_toString (announced_lt w)

section

variable {cfg : ClientConfig} {server : ℕ → Response} {w : Duration}

/-- The sleep after a response that is worth another attempt. -/
def ClientConfig.wait (cfg : ClientConfig) (r : Response) : Duration :=
  ((parseRetryAfter r.retryAfter).getD cfg.defaultRetryAfter).min cfg.maxRetryAfter

theorem onResponse_retryable {attempt : ℕ} {r : Response} (h : r.Retryable)
    (hmore : attempt+1 < cfg.maxAttempts) : cfg.onResponse attempt r = .again (cfg.wait r) := by
  obtain ⟨h200,h401,_⟩ := h.busy.status
  unfold ClientConfig.onResponse
  dsimp only
  rw [if_neg h200,if_neg h401,if_pos ⟨h.busy,hmore⟩]
  exact (if_neg h.allowed).trans (if_neg h.fits)

/-- The `i`-th sleep of a loop that gets so far. -/
theorem sendFrom_sleeps {attempt left i : ℕ} (hlast : attempt+left = cfg.maxAttempts) (hi : i+1 < left)
    (hretry : ∀ j ≤ i, (server (attempt+j)).Retryable) (lastStatus : ℕ)
    (lastRetryAfter : Option Duration) :
    (sendFrom cfg server attempt left lastStatus lastRetryAfter).sleeps[i]? =
      some (cfg.wait (server (attempt+i))) := by
  induction i generalizing attempt left lastStatus lastRetryAfter with
  | zero =>
    obtain ⟨left,rfl⟩ : ∃ k, left = k+1 := ⟨left-1,by omega⟩
    have hagain : cfg.onResponse attempt (server attempt) = .again (cfg.wait (server attempt)) :=
      onResponse_retryable (hretry 0 le_rfl) (by omega)
    simp [sendFrom,hagain]
  | succ i ih =>
    obtain ⟨left,rfl⟩ : ∃ k, left = k+1 := ⟨left-1,by omega⟩
    have hagain : cfg.onResponse attempt (server attempt) = .again (cfg.wait (server attempt)) :=
      onResponse_retryable (hretry 0 (Nat.zero_le _)) (by omega)
    have hnext : ∀ j ≤ i, (server (attempt+1+j)).Retryable := by
      intro j hj
      rw [Nat.add_right_comm]
      exact hretry (j+1) (Nat.succ_le_succ hj)
    have hlast' : attempt+1+left = cfg.maxAttempts := by omega
    have hrest := ih hlast' (by omega) hnext (server attempt).status
      (parseRetryAfter (server attempt).retryAfter)
    rw [Nat.add_right_comm,Nat.add_assoc] at hrest
    simpa [sendFrom,hagain] using hrest

theorem shedResponse_rateLimit_retryable (w : Option Duration) :
    (shedResponse .rateLimit w).Retryable := by
  have hreason : (shedResponse .rateLimit w).reason = some "rate_limit" :=
    rfl
  refine ⟨Or.inl rfl,?_,?_⟩ <;> rw [hreason] <;> decide

/-- The batch passes the checks and the limiter refuses it for `w`. -/
structure RateLimited (s : HttpState) (req : HttpRequest) (scope : TokenScope)
    (events : List IngestEvent) (w : Duration) : Prop where
  submitted : submitted s req scope events
  nonempty : events ≠ []
  checked : ∀ e ∈ events,
    scope.allows e.sourceId e.kind = true ∧ approxSemanticSize e.semantic ≤ s.hardCapBytes
  rate : scope.checkRate = some w

variable {s : HttpState} {req : HttpRequest} {scope : TokenScope} {events : List IngestEvent}

theorem ingest_rateLimited (h : RateLimited s req scope events w) (nowMs : Int64)
    (between : Interference) :
    (ingest s req nowMs between).1 = shedResponse .rateLimit (some w) := by
  obtain ⟨hauth,hparse⟩ := h.submitted
  have hcheck : (checkEvents s scope nowMs events s.metrics).1 = none :=
    checkEvents_none_iff.mpr h.checked
  obtain ⟨e,rest,rfl⟩ := List.exists_cons_of_ne_nil h.nonempty
  rcases hpair : checkEvents s scope nowMs (e::rest) s.metrics with ⟨reason,m⟩
  rw [hpair] at hcheck
  simp only at hcheck
  subst hcheck
  simp [ingest,hauth,hparse,hpair,h.rate]

/-- The scope when its limiter is asked again, `t` nanoseconds after it refused. -/
def TokenScope.after (scope : TokenScope) (limiter : ℕ → Option Duration) (t : ℕ) : TokenScope :=
  { scope with limiter := some ⟨limiter t⟩ }

/-- A sleep long enough for a wait: no limiter that admits from the end of the wait on refuses a
request made after the sleep. -/
structure Honoured (scope : TokenScope) (w slept : Duration) : Prop where
  enough : w.asNanos ≤ slept.asNanos
  admitted : ∀ limiter : ℕ → Option Duration, (∀ t, w.asNanos ≤ t → limiter t = none) →
    ∀ t, slept.asNanos ≤ t → (scope.after limiter t).checkRate = none

theorem honoured_iff {slept : Duration} :
    Honoured scope w slept ↔ w.asNanos ≤ slept.asNanos :=
  ⟨fun h => h.enough,fun h => ⟨h,fun _ hadmits t ht => hadmits t (h.trans ht)⟩⟩

/-- Nothing is cut off a wait of whole seconds, and up to one second the floor makes up for it. -/
theorem asNanos_le_announced_iff :
    w.asNanos ≤ (announced w).asNanos ↔ w.asNanos ≤ 10^9 ∨ w.subsecNanos = 0 := by
  have hzero : w.subsecNanos = 0 ↔ w.subsecNanos.toNat = 0 := UInt32.toNat_inj.symm
  rw [asNanos_announced,hzero]
  unfold Duration.asNanos
  omega

/-- A client that is refused at its `i`-th attempt, and has another one left, sleeps long enough
exactly when the wait is at most a second or a whole number of seconds. -/
theorem retry_after_honoured_iff (h : RateLimited s req scope events w) (nowMs : Int64)
    (between : Interference) (hcap : w.asNanos+10^9 ≤ cfg.maxRetryAfter.asNanos) {i : ℕ}
    (hi : i+1 < cfg.maxAttempts) (hretry : ∀ j < i, (server j).Retryable)
    (hserver : server i = (ingest s req nowMs between).1) {batch : List ClientEvent}
    (hbatch : batch ≠ []) :
    ∃ slept, (sendBatch cfg server batch).sleeps[i]? = some slept ∧
      (Honoured scope w slept ↔ w.asNanos ≤ 10^9 ∨ w.subsecNanos = 0) := by
  have hresp := hserver.trans (ingest_rateLimited h nowMs between)
  have hcall : sendBatch cfg server batch = sendFrom cfg server 0 cfg.maxAttempts 0 none :=
    if_neg (by simpa using hbatch)
  have hwait : cfg.wait (server i) = announced w := by
    have hle : (announced w).asNanos ≤ cfg.maxRetryAfter.asNanos := by
      refine (asNanos_announced w).trans_le (le_trans ?_ hcap)
      unfold Duration.asNanos
      omega
    simp only [hresp,ClientConfig.wait,parseRetryAfter_shedResponse,Option.getD_some]
    exact if_pos hle
  refine ⟨announced w,?_,honoured_iff.trans asNanos_le_announced_iff⟩
  rw [hcall,sendFrom_sleeps (Nat.zero_add _) hi (fun j hj => ?_),Nat.zero_add,hwait]
  rw [Nat.zero_add]
  rcases hj.lt_or_eq with hlt | rfl
  · exact hretry j hlt
  · rw [hresp]
    exact shedResponse_rateLimit_retryable _

/-- A token over its rate, refused for a second and a half. -/
def overRateScope : TokenScope :=
  ⟨"cams",fun _ => true,fun _ => true,some ⟨some ⟨1,500000000⟩⟩⟩

def overRate : HttpState where
  ulid := ⟨fun _ => "",fun _ => none⟩
  auth := ⟨fun token => if token = "t" then some overRateScope else none⟩
  hardCapBytes := 65536
  softCapBytes := 16384
  metrics := .new
  tx := .new 4096

def refusedThenAccepted (i : ℕ) : Response :=
  if i = 0 then (ingest overRate batchOfTwo 0 fun _ => []).1 else ⟨200,.accepted 2,none,none⟩

theorem retry_after_honoured_over_rate :
    ∃ slept, (sendBatch {} refusedThenAccepted [.new "s" "k" 0 .null]).sleeps[0]? = some slept ∧
      (Honoured overRateScope ⟨1,500000000⟩ slept ↔
        Duration.asNanos ⟨1,500000000⟩ ≤ 10^9 ∨ (500000000 : UInt32) = 0) := by
  have hlimited : RateLimited overRate batchOfTwo overRateScope
      (List.replicate 2 ⟨none,"cam","frame",5,.null,none,none,none⟩) ⟨1,500000000⟩ := by
    refine ⟨⟨rfl,rfl⟩,List.cons_ne_nil _ _,fun e he => ?_,rfl⟩
    obtain ⟨_,rfl⟩ := List.mem_replicate.mp he
    exact ⟨rfl,by decide⟩
  exact retry_after_honoured_iff hlimited 0 (fun _ => []) (by decide) (by decide)
    (fun j hj => absurd hj (Nat.not_lt_zero j)) rfl (List.cons_ne_nil _ _)

/-- The header says one second, and after one second the limiter still refuses. -/
theorem retry_after_too_short :
    (ingest overRate batchOfTwo 0 fun _ => []).1 = shedResponse .rateLimit (some ⟨1,500000000⟩) ∧
      (sendBatch {} refusedThenAccepted [.new "s" "k" 0 .null]).sleeps = [.fromSecs 1] ∧
      ¬Honoured overRateScope ⟨1,500000000⟩ (.fromSecs 1) := by
  refine ⟨by decide,by decide,fun h => ?_⟩
  exact absurd h.enough (by decide)

end

end Percept
