import Percept.Forwarder
import Percept.IngestBus

/-! Order on the bus: a batch reaches the normalizer in its own order, and the normalizer numbers
each source and fills each ring in the order it receives. -/
namespace Percept

namespace IngestSystem

variable {cfg : IngestConfig} {s s' : IngestSystem cfg} {a : IngestAction}

/-- The envelopes of one batch. -/
def fromBatch (i : ℕ) (l : List Submission) : List IngestEnvelope :=
  (l.filter fun x => x.batch = some i).map (·.envelope)

theorem fromBatch_append (i : ℕ) (l l' : List Submission) :
    fromBatch i (l ++ l') = fromBatch i l ++ fromBatch i l' := by
  simp [fromBatch]

/-- What the normalizer keeps of an envelope. -/
def Carries (x : Submission) (e : Event) : Prop :=
  e.sourceId = x.envelope.event.sourceId ∧ e.kind = x.envelope.event.kind ∧
    e.tsMsUtc = x.envelope.event.tsMsUtc ∧ e.semantic = x.envelope.event.semantic

/-- A batch is on the bus as far as its loop has come, and what was received was pushed. -/
structure Ordered (s : IngestSystem cfg) : Prop where
  batch : ∀ i b, s.batches[i]? = some b →
    fromBatch i s.tx.sent = (b.events.take b.sent).map b.scope.envelope
  unknown : ∀ i, s.batches.length ≤ i → fromBatch i s.tx.sent = []
  pushed : List.Forall₂ Carries s.tx.received s.pushed
  history : s.normalizer.History s.pushed

theorem Ordered.spawn {normalizer : Normalizer cfg.hotRing} (h : normalizer.History [])
    (brokers : List MqttSubscriber) : (spawn normalizer brokers).Ordered :=
  ⟨fun i b hb => by simp [IngestSystem.spawn] at hb,fun _ _ => rfl,.nil,h⟩

/-- Batches replaced by others with the same envelopes on the bus. -/
theorem Ordered.of_frame (h : s.Ordered) (frame : Frame s s')
    (hbatch : ∀ i b, s'.batches[i]? = some b →
      fromBatch i s'.tx.sent = (b.events.take b.sent).map b.scope.envelope)
    (hunknown : ∀ i, s'.batches.length ≤ i → fromBatch i s'.tx.sent = []) : s'.Ordered where
  batch := hbatch
  unknown := hunknown
  pushed := by rw [frame.received,frame.pushed]; exact h.pushed
  history := by rw [frame.pushed]; exact h.history.of_eq frame.hotRings frame.seqBySource

/-- One batch is replaced, and the bus has more of that batch at most. -/
theorem Ordered.of_set (h : s.Ordered) (frame : Frame s s') {i : ℕ} {b b' : Batch cfg}
    (found : s.batches[i]? = some b) (batches : s'.batches = s.batches.set i b')
    (hself : fromBatch i s'.tx.sent = (b'.events.take b'.sent).map b'.scope.envelope)
    (hother : ∀ j, i ≠ j → fromBatch j s'.tx.sent = fromBatch j s.tx.sent) : s'.Ordered := by
  have hlt : i < s.batches.length := (List.getElem?_eq_some_iff.mp found).1
  refine h.of_frame frame (fun j x hx => ?_) fun j hj => ?_
  · rw [batches] at hx
    by_cases hij : i = j
    · subst hij
      rw [List.getElem?_set_self hlt] at hx
      obtain rfl := Option.some.inj hx
      exact hself
    · rw [List.getElem?_set_ne hij] at hx
      rw [hother j hij]
      exact h.batch j x hx
  · rw [batches,List.length_set] at hj
    rw [hother j (by omega)]
    exact h.unknown j hj

theorem Ordered.step (h : s.Ordered) (heffect : Effect s a s') : s'.Ordered := by
  cases heffect with
  | quiet frame batches sent =>
    exact h.of_frame frame (by rw [batches,sent]; exact h.batch) (by rw [batches,sent]; exact h.unknown)
  | accept b frame batches sent fresh =>
    refine h.of_frame frame (fun i b' hb' => ?_) fun i hi => ?_
    · rw [batches] at hb'
      rw [sent]
      by_cases hi : i < s.batches.length
      · rw [List.getElem?_append_left hi] at hb'
        exact h.batch i b' hb'
      · rw [h.unknown i (not_lt.mp hi)]
        rw [List.getElem?_append_right (not_lt.mp hi)] at hb'
        obtain rfl : b = b' := by
          cases hk : i-s.batches.length <;> simp [hk] at hb'
          exact hb'
        simp [fresh]
    · rw [batches,List.length_append] at hi
      rw [sent]
      exact h.unknown i (by omega)
  | stop i b frame found batches sent =>
    refine h.of_set frame found batches ?_ fun j _ => by rw [sent]
    rw [sent]
    exact h.batch i b found
  | enqueue i b e frame found next batches sent =>
    refine h.of_set frame found batches ?_ fun j hij => ?_
    · rw [sent,fromBatch_append,h.batch i b found]
      simp [fromBatch,List.take_add_one,next]
    · rw [sent,fromBatch_append]
      simp [fromBatch,hij]
  | publish i m topic payload nowMs e frame action found routed room batches sent =>
    have hsame : ∀ j, fromBatch j s'.tx.sent = fromBatch j s.tx.sent := by
      intro j
      rw [sent,fromBatch_append]
      simp [fromBatch]
    refine h.of_frame frame (fun j b' hb' => ?_) fun j hj => ?_
    · rw [batches] at hb'
      rw [hsame]
      exact h.batch j b' hb'
    · rw [batches] at hj
      rw [hsame]
      exact h.unknown j hj
  | normalize x rest arrival queue envelope received pushed normalizer batches sent =>
    constructor
    · rw [batches,sent]
      exact h.batch
    · rw [batches,sent]
      exact h.unknown
    · rw [received,pushed]
      obtain ⟨hsource,hkind,hts,hsemantic,-⟩ := Normalizer.step_event cfg.ulid s.normalizer arrival
      rw [envelope] at hsource hkind hts hsemantic
      exact List.rel_append h.pushed (.cons ⟨hsource,hkind,hts,hsemantic⟩ .nil)
    · rw [normalizer,pushed]
      exact h.history.step cfg.ulid arrival

theorem Ordered.run (h : s.Ordered) (l : List IngestAction) : (s.run l).Ordered := by
  induction l generalizing s with
  | nil => exact h
  | cons a l ih => exact ih (h.step (s.step_effect a))

/-- How many envelopes of a source were received. -/
def arrivals (s : IngestSystem cfg) (src : String) : ℕ :=
  s.tx.received.countP fun x => x.envelope.event.sourceId = src

theorem arrivals_eq (h : List.Forall₂ Carries s.tx.received s.pushed) (src : String) :
    s.arrivals src = (ofSource src s.pushed).length := by
  unfold arrivals ofSource
  generalize s.tx.received = received,s.pushed = pushed at h
  induction h with
  | nil => rfl
  | cons hxe _ ih =>
    rw [List.countP_cons,List.filter_cons,ih,hxe.1]
    split <;> simp_all

end IngestSystem

open IngestSystem in
/-- In every reachable state the received envelopes of a source are numbered from one on, modulo
`2^64`, a batch was received in its own order, and a ring ascends and ends in the last event of
its pair. -/
theorem seq_gap_free {cfg : IngestConfig} (schemas : SchemaIndex) (coldTx : Option (Channel Event))
    (embedSink : Option EmbedSink) (forwardTx : Option (Channel Event))
    (brokers : List MqttSubscriber) (l : List IngestAction) :
    let s : IngestSystem cfg := (spawn (.new schemas coldTx embedSink forwardTx) brokers).run l
    List.Forall₂ Carries s.tx.received s.pushed ∧
    (∀ src, (ofSource src s.pushed).map (·.seq) = numbers (s.arrivals src)) ∧
    (∀ i b, s.batches[i]? = some b →
      fromBatch i s.tx.received <+: b.events.map b.scope.envelope) ∧
    ∀ p : Pair, let ring := s.normalizer.hotRings.snapshot p.1 p.2
      (s.arrivals p.1 < 2^64 → (ring.map (·.seq)).Pairwise SeqLt) ∧
      (ring ≠ [] → s.normalizer.hotRings.latest p.1 p.2 = (ofKind p s.pushed).getLast?) := by
  intro s
  have h : s.Ordered := (Ordered.spawn (.new rfl rfl) brokers).run l
  refine ⟨h.pushed,fun src => ?_,fun i b hb => ?_,fun p => ⟨fun hn => ?_,h.history.latest⟩⟩
  · rw [arrivals_eq h.pushed]
    exact h.history.numbered src
  · have hreceived : fromBatch i s.tx.received <+: fromBatch i s.tx.sent := by
      rw [Channel.sent,fromBatch_append]
      exact List.prefix_append _ _
    rw [h.batch i b hb] at hreceived
    exact hreceived.trans ((List.take_prefix _ _).map _)
  · rw [arrivals_eq h.pushed] at hn
    exact h.history.ring_ascending p hn

namespace IngestSystem

/-- One broker, every message of which is an event of source `s`. -/
def echoBroker (metrics : MqttMetrics) : MqttSubscriber := ⟨"b",[⟨"t","s",some "k",none,.hex⟩],metrics⟩

def echoConfig : IngestConfig where
  ulid := crockfordText
  auth := ⟨fun _ => none⟩
  fromSlice := fun _ => .error "EOF while parsing a value at line 1 column 0"

def echoSystem : IngestSystem echoConfig := spawn (.new .empty none none none) [echoBroker ⟨0,0,0,0⟩]

/-- A message is published and normalized. -/
def echoRound : List IngestAction := [.poll 0 (.publish "t" []) 0,.normalize 0 0 0 0]

/-- Nothing waits on the bus. -/
structure EchoReady (s : IngestSystem echoConfig) : Prop where
  room : s.tx.hasRoom = true
  queue : s.tx.queue = []
  broker : ∃ metrics, s.brokers = [echoBroker metrics]

theorem poll_echo {s : IngestSystem echoConfig} (h : EchoReady s) :
    ∃ x : Submission, x.envelope.event.sourceId = "s" ∧
      (s.poll 0 (.publish "t" []) 0).tx = s.tx.apply (.trySend x) ∧
      ∃ metrics, (s.poll 0 (.publish "t" []) 0).brokers = [echoBroker metrics] := by
  obtain ⟨metrics,hbroker⟩ := h.broker
  have hm : s.brokers[0]? = some (echoBroker metrics) := by rw [hbroker]; rfl
  have hrouted : (echoBroker metrics).routed echoConfig.fromSlice "t" [] 0 = .ok
      ⟨none,"s","k",0,.object [("encoding",.string "hex"),("hex",.string "")],none,none,some "b"⟩ := rfl
  refine ⟨_,?_,poll_routed hm hrouted,{ metrics with messagesReceived := metrics.messagesReceived+1 },?_⟩
  · rfl
  · simp only [poll,MqttSubscriber.drive,hbroker]
    rfl

theorem echoRound_ready {s : IngestSystem echoConfig} (h : EchoReady s) :
    EchoReady (s.run echoRound) ∧
      (ofSource "s" (s.run echoRound).pushed).length = (ofSource "s" s.pushed).length+1 := by
  obtain ⟨x,hsource,htx,hbrokers⟩ := poll_echo h
  have hpushed := (s.poll_frame 0 (.publish "t" []) 0).2.1
  change EchoReady ((s.poll 0 (.publish "t" []) 0).normalizeNext 0 0 0 0) ∧
    (ofSource "s" ((s.poll 0 (.publish "t" []) 0).normalizeNext 0 0 0 0).pushed).length = _
  generalize s.poll 0 (.publish "t" []) 0 = s₁ at htx hbrokers hpushed ⊢
  have hqueue : s₁.tx.queue = [x] := by
    rw [htx,Channel.queue_apply_trySend,h.room,h.queue]
    rfl
  have hnext : s₁.normalizeNext 0 0 0 0 = { s₁ with
      tx := s₁.tx.recv
      normalizer := (s₁.normalizer.step echoConfig.ulid ⟨x.envelope,0,0,0,0⟩).2
      pushed := s₁.pushed ++ [(s₁.normalizer.step echoConfig.ulid ⟨x.envelope,0,0,0,0⟩).1] } := by
    simp only [normalizeNext,hqueue]
  have hlevel : s₁.tx.recv.level = s.tx.level := by
    change (s₁.tx.apply .recv).level = _
    rw [Channel.level_apply,htx,Channel.level_apply]
    have hroom : s.tx.level.hasRoom = true := h.room
    simp [Channel.Level.apply,hroom,Channel.Level.push]
  rw [hnext]
  refine ⟨⟨?_,by simp [hqueue],hbrokers⟩,?_⟩
  · rw [← Channel.hasRoom_level,hlevel]
    exact h.room
  · have hevent := (Normalizer.step_event echoConfig.ulid s₁.normalizer ⟨x.envelope,0,0,0,0⟩).1
    simp [ofSource,hpushed,hevent,hsource]

theorem echo_rounds {s : IngestSystem echoConfig} (h : EchoReady s) (k : ℕ) :
    ∃ l, (ofSource "s" (s.run l).pushed).length = (ofSource "s" s.pushed).length+k := by
  induction k generalizing s with
  | zero => exact ⟨[],rfl⟩
  | succ k ih =>
    obtain ⟨hready,hlength⟩ := echoRound_ready h
    obtain ⟨l,hl⟩ := ih hready
    refine ⟨echoRound ++ l,?_⟩
    rw [run,List.foldl_append,← run,← run,hl,hlength]
    omega

end IngestSystem

open IngestSystem in
/-- After `2^64` messages of one source the last one has number zero. -/
theorem seq_gap_free_fails : ¬∀ (l : List IngestAction) (i : ℕ) (e : Event),
    (ofSource "s" (echoSystem.run l).pushed)[i]? = some e → e.seq.map UInt64.toNat = some (i+1) := by
  intro h
  have hready : EchoReady echoSystem := ⟨rfl,rfl,⟨0,0,0,0⟩,rfl⟩
  obtain ⟨l,hl⟩ := echo_rounds hready (2^64)
  have hordered : (echoSystem.run l).Ordered := (Ordered.spawn (.new rfl rfl) _).run l
  have hnumbers := hordered.history.numbered "s"
  have hlength : (ofSource "s" (echoSystem.run l).pushed).length = 2^64 := hl.trans (Nat.zero_add _)
  rw [hlength] at hnumbers
  have hall := h l (2^64-1)
  generalize ofSource "s" (echoSystem.run l).pushed = events at hall hnumbers hlength
  have hlt : 2^64-1 < events.length := by omega
  have hlast := hall events[2^64-1] (List.getElem?_eq_getElem hlt)
  have hseq : (events.map (·.seq))[2^64-1]? = some events[2^64-1].seq := by
    rw [List.getElem?_map,List.getElem?_eq_getElem hlt]
    rfl
  rw [hnumbers,getElem?_numbers (show 2^64-1 < 2^64 by omega)] at hseq
  rw [← Option.some.inj hseq] at hlast
  have hzero := Option.some.inj hlast
  rw [UInt64.toNat_ofNat'] at hzero
  omega

end Percept
