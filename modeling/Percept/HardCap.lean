import Percept.ArrivalOrder

/-! The hard size cap on the bus. HTTP and WebSocket check it before a batch is built; a broker's
event is never measured. -/
namespace Percept

namespace IngestSystem

variable {cfg : IngestConfig} {s s' : IngestSystem cfg} {a : IngestAction}

/-- Everything that was ever put on the bus is within the cap. -/
def WithinCap (s : IngestSystem cfg) : Prop :=
  ∀ x ∈ s.tx.sent, approxSemanticSize x.envelope.event.semantic ≤ cfg.hardCapBytes

/-- A publish that is routed while the bus has room gives an event within the cap. -/
def PublishWithinCap (s : IngestSystem cfg) (a : IngestAction) : Prop :=
  ∀ i topic payload nowMs m e, a = .poll i (.publish topic payload) nowMs →
    s.brokers[i]? = some m → m.routed cfg.fromSlice topic payload nowMs = .ok e →
      s.tx.hasRoom = true → approxSemanticSize e.semantic ≤ cfg.hardCapBytes

theorem withinCap_step_iff (s : IngestSystem cfg) (a : IngestAction) (h : s.WithinCap) :
    (s.step a).WithinCap ↔ s.PublishWithinCap a := by
  constructor
  · rintro hstep i topic payload nowMs m e rfl hm hrouted hroom
    obtain ⟨tx,htx,hsent⟩ := Channel.trySend_ok hroom ⟨none,m.envelope e⟩
    have hpoll := poll_routed hm hrouted
    rw [Channel.apply,htx] at hpoll
    exact hstep ⟨none,m.envelope e⟩ (by simp [IngestSystem.step,hpoll,hsent])
  · intro hpublish
    have hkept : (s.step a).tx.sent = s.tx.sent → (s.step a).WithinCap := by
      intro hsent
      rw [WithinCap,hsent]
      exact h
    have hadded : ∀ {x : Submission}, (s.step a).tx.sent = s.tx.sent ++ [x] →
        approxSemanticSize x.envelope.event.semantic ≤ cfg.hardCapBytes → (s.step a).WithinCap := by
      intro x hsent hx y hy
      rw [hsent] at hy
      rcases List.mem_append.mp hy with hy | hy
      · exact h y hy
      · rw [List.mem_singleton.mp hy]
        exact hx
    cases s.step_effect a with
    | quiet _ _ sent => exact hkept sent
    | accept _ _ _ sent _ => exact hkept sent
    | stop _ _ _ _ _ sent => exact hkept sent
    | normalize _ _ _ _ _ _ _ _ _ sent => exact hkept sent
    | enqueue i b e _ found next _ sent =>
      exact hadded sent (b.checked e (List.mem_of_getElem? next)).2
    | publish i m topic payload nowMs e _ action found routed room _ sent =>
      exact hadded sent (hpublish i topic payload nowMs m e action found routed room)

end IngestSystem

open IngestSystem in
/-- A run keeps everything on the bus within the hard cap exactly when each publish that is
routed while the bus has room is within it. -/
theorem hard_cap_iff {cfg : IngestConfig} (schemas : SchemaIndex) (coldTx : Option (Channel Event))
    (embedSink : Option EmbedSink) (forwardTx : Option (Channel Event))
    (brokers : List MqttSubscriber) (l : List IngestAction) :
    let s : IngestSystem cfg := spawn (.new schemas coldTx embedSink forwardTx) brokers
    Runs.Always step WithinCap s l ↔ Runs.EachStep step PublishWithinCap s l :=
  Runs.always_iff_eachStep (I := fun _ => True) (fun _ _ _ => trivial)
    (fun s a _ h => withinCap_step_iff s a h) trivial (fun x hx => by cases hx) l

theorem elementsSize_replicate (n : ℕ) (v : Json) :
    elementsSize (List.replicate n v) = n*approxSemanticSize v := by
  induction n with
  | zero => simp [elementsSize]
  | succ n ih =>
    rw [List.replicate_succ,elementsSize,ih]
    ring

/-- The text `[0,0,...,0]` of 4096 zeros, 8193 bytes. -/
def zerosText : List UInt8 := 91::(List.replicate 4095 [48,44]).flatten ++ [48,93]

def zeros : Json := .array (List.replicate 4096 (.number (.posInt 0)))

theorem size_zeros : approxSemanticSize zeros = 4096*16+2 := by
  rw [zeros,approxSemanticSize,elementsSize_replicate]
  rfl

/-- A JSON parser, as far as one text needs it. -/
def parseOnly (text : List UInt8) (v : Json) (bytes : List UInt8) : Except String Json :=
  if bytes = text then .ok v else .error "EOF while parsing a value at line 1 column 0"

/-- The default caps. -/
def zerosConfig : IngestConfig where
  ulid := crockfordText
  auth := ⟨fun _ => none⟩
  fromSlice := parseOnly zerosText zeros

/-- One broker, every message of which is an event of source `s` with the JSON it carries. -/
def jsonBroker : MqttSubscriber := ⟨"b",[⟨"t","s",some "k",none,.json⟩],⟨0,0,0,0⟩⟩

theorem jsonBroker_routed (text : List UInt8) (v : Json) :
    jsonBroker.routed (parseOnly text v) "t" text 0 = .ok ⟨none,"s","k",0,v,none,none,some "b"⟩ := by
  have hcaptures : (TopicMatcher.new "t").captures "t" = some ⟨[],none⟩ := by decide
  have hrender : render "s" ⟨[],none⟩ = .ok "s" := by decide
  have hparse : parseOnly text v text = .ok v := if_pos rfl
  simp only [MqttSubscriber.routed,jsonBroker,route,CompiledSubscription.matcher,hcaptures,hrender,
    decode,hparse,resolveKind]

open IngestSystem in
/-- These 8193 bytes on a topic become an event of 65538 bytes on the bus. -/
theorem hard_cap_fails : ¬Runs.Always step WithinCap
    (spawn (.new .empty none none none) [jsonBroker] : IngestSystem zerosConfig)
    [.poll 0 (.publish "t" zerosText) 0] := by
  rintro ⟨hstart,hstep⟩
  have hpublish := (withinCap_step_iff _ _ hstart).mp hstep
  have hsize := hpublish 0 "t" zerosText 0 jsonBroker _ rfl rfl (jsonBroker_routed zerosText zeros) rfl
  rw [size_zeros] at hsize
  exact absurd hsize (by decide)

end Percept
