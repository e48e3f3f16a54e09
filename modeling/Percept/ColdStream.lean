import Percept.ArrivalOrder
import Percept.Replay

/-! From the bus to the consumers. Each received envelope makes one event, which keeps the fields that
its producer set; the events go to each consumer in order, and one that does not is counted. -/
namespace Percept

/-- The fields that an event keeps of its envelope. An id and a trace id are assigned only where there
is none. -/
structure Keeps (x : Submission) (e : Event) : Prop where
  eventId : ∀ id, x.envelope.event.eventId = some id → e.eventId = id
  sourceId : e.sourceId = x.envelope.event.sourceId
  kind : e.kind = x.envelope.event.kind
  tsMsUtc : e.tsMsUtc = x.envelope.event.tsMsUtc
  semantic : e.semantic = x.envelope.event.semantic
  links : e.links = x.envelope.event.links
  traceId : ∀ t, x.envelope.event.traceId = some t → e.traceId = some t
  producerId : e.producerId = x.envelope.event.producerId
  ingestTsMsUtc : e.ingestTsMsUtc.isSome

theorem keeps_step {config : HotRingConfig} (ulid : UlidText) (n : Normalizer config) {a : Arrival}
    {x : Submission} (h : a.envelope = x.envelope) : Keeps x (n.step ulid a).1 where
  eventId id hid := by
    rw [← h] at hid
    change a.envelope.event.eventId.getD a.eventId = id
    rw [hid,Option.getD_some]
  sourceId := by rw [← h]; rfl
  kind := by rw [← h]; rfl
  tsMsUtc := by rw [← h]; rfl
  semantic := by rw [← h]; rfl
  links := by rw [← h]; rfl
  traceId t ht := by
    rw [← h] at ht
    change some (a.envelope.event.traceId.getD (ulid.toText a.traceId)) = some t
    rw [ht,Option.getD_some]
  producerId := by rw [← h]; rfl
  ingestTsMsUtc := rfl

section Checks

variable {s : HttpState} {scope : TokenScope} {nowMs : Int64}

/-- The checks of a request touch no drop counter. -/
theorem drops_checkEvents (events : List IngestEvent) (m : Metrics) :
    (checkEvents s scope nowMs events m).2.consumerDrops = m.consumerDrops := by
  induction events generalizing m with
  | nil => rfl
  | cons e events ih =>
    simp only [checkEvents]
    split_ifs
    · rfl
    · rfl
    · exact ih _
    · exact ih _

theorem drops_wsCheckEvents (events : List IngestEvent) (m : Metrics) :
    (wsCheckEvents s scope nowMs events m).2.consumerDrops = m.consumerDrops := by
  induction events generalizing m with
  | nil => rfl
  | cons e events ih =>
    simp only [wsCheckEvents]
    split_ifs
    · rfl
    · rfl
    · exact ih _

theorem drops_rateShed (events : List IngestEvent) (m : Metrics) :
    (rateShed scope nowMs events m).consumerDrops = m.consumerDrops := by
  unfold rateShed
  generalize hm : m.incShed ShedReason.rateLimit.asStr (some scope.name) = m'
  have hdrops : m'.consumerDrops = m.consumerDrops := by rw [← hm]; rfl
  rw [← hdrops]
  clear hm hdrops
  induction events generalizing m' with
  | nil => rfl
  | cons e events ih => exact ih (m'.incSourceError e.sourceId ShedReason.rateLimit.asStr nowMs)

theorem drops_httpAdmit (body : Except String Json) :
    (httpAdmit s scope body nowMs).2.consumerDrops = s.metrics.consumerDrops := by
  unfold httpAdmit
  split
  · rfl
  · rfl
  next events hne _ =>
    have hcheck := @drops_checkEvents s scope nowMs events s.metrics
    split
    next h => rw [h] at hcheck; exact hcheck
    next m h =>
      rw [h] at hcheck
      split
      · exact (drops_rateShed events m).trans hcheck
      · exact hcheck

theorem drops_wsAdmit (body : Except String Json) :
    (wsAdmit s scope body nowMs).2.consumerDrops = s.metrics.consumerDrops := by
  unfold wsAdmit
  split
  · rfl
  · rfl
  next events hne _ =>
    have hcheck := @drops_wsCheckEvents s scope nowMs events s.metrics
    split
    next h => rw [h] at hcheck; exact hcheck
    next m h =>
      rw [h] at hcheck
      split
      · exact (drops_rateShed events m).trans hcheck
      · exact hcheck

end Checks

namespace IngestSystem

variable {cfg : IngestConfig} {s s' : IngestSystem cfg} {a : IngestAction}

/-- What is in the channel of a consumer that is offered the events `p`, and what it missed. -/
structure Feeds (s : IngestSystem cfg) (c : Consumer) (p : Event → Bool) (tx : Channel Event) : Prop where
  channel : s.normalizer.channel c = some tx
  opened : tx.closed = false
  accepts : s.normalizer.accepts c = p
  ordered : tx.sent.Sublist (s.pushed.filter p)
  counted : tx.sent.length+s.normalizer.metrics.consumerDrops c.name = (s.pushed.filter p).length

namespace Feeds

variable {c : Consumer} {p : Event → Bool} {tx : Channel Event}

/-- Nothing was dropped, so all is there. -/
theorem sent_eq (h : s.Feeds c p tx) (hdrops : s.normalizer.metrics.consumerDrops c.name = 0) :
    tx.sent = s.pushed.filter p :=
  h.ordered.eq_of_length (by have := h.counted; omega)

/-- Only counters of the normalizer changed, and not the one of the consumer. -/
theorem of_eq (h : s.Feeds c p tx)
    (hnormalizer : s'.normalizer = { s.normalizer with metrics := s'.normalizer.metrics })
    (hpushed : s'.pushed = s.pushed) (hdrops : s'.normalizer.metrics.consumerDrops c.name =
      s.normalizer.metrics.consumerDrops c.name) : s'.Feeds c p tx := by
  have hchannel : s'.normalizer.channel c = s.normalizer.channel c := by
    rw [hnormalizer]
    cases c <;> rfl
  have haccepts : s'.normalizer.accepts c = s.normalizer.accepts c := by
    rw [hnormalizer]
    cases c <;> rfl
  refine ⟨hchannel.trans h.channel,h.opened,haccepts.trans h.accepts,?_,?_⟩
  · rw [hpushed]
    exact h.ordered
  · rw [hpushed,hdrops]
    exact h.counted

theorem http (h : s.Feeds c p tx) (authorization : Option String) (body : Except String Json)
    (nowMs : Int64) (rate : Option Duration) : (s.http authorization body nowMs rate).Feeds c p tx := by
  unfold IngestSystem.http
  split
  · exact h
  next scope hauth =>
    have hdrops : (httpAdmit s.view (scope.withRate rate) body nowMs).2.consumerDrops c.name =
        s.normalizer.metrics.consumerDrops c.name := congrFun (drops_httpAdmit body) _
    dsimp only
    split
    · exact h.of_eq rfl rfl hdrops
    · exact h.of_eq rfl rfl hdrops

theorem message (h : s.Feeds c p tx) (i : ℕ) (body : Except String Json) (nowMs : Int64)
    (rate : Option Duration) : (s.message i body nowMs rate).Feeds c p tx := by
  unfold IngestSystem.message
  split
  · exact h
  next x hx =>
    split
    · exact h
    · have hdrops : (wsAdmit s.view (x.scope.withRate rate) body nowMs).2.consumerDrops c.name =
          s.normalizer.metrics.consumerDrops c.name := congrFun (drops_wsAdmit body) _
      dsimp only
      split
      · exact h.of_eq rfl rfl hdrops
      · exact h.of_eq rfl rfl hdrops

theorem send (h : s.Feeds c p tx) (i : ℕ) : (s.send i).Feeds c p tx := by
  unfold IngestSystem.send
  split
  · exact h
  · split
    · exact h
    · split
      · exact h
      · split
        · exact h.of_eq rfl rfl rfl
        next b _ _ e _ failure _ =>
          cases failure with
          | full => exact h.of_eq rfl rfl rfl
          | closed =>
            dsimp only
            split
            · exact h.of_eq rfl rfl rfl
            · exact h.of_eq rfl rfl rfl

theorem poll (h : s.Feeds c p tx) (i : ℕ) (polled : Polled) (nowMs : Int64) :
    (s.poll i polled nowMs).Feeds c p tx := by
  obtain ⟨-,hpushed,-,-⟩ := s.poll_frame i polled nowMs
  unfold IngestSystem.poll
  split
  · exact h
  next m hm =>
    refine h.of_eq rfl rfl ?_
    cases polled with
    | other | failed => rfl
    | publish topic payload =>
      simp only [MqttSubscriber.drive]
      split
      · exact drops_offer_ne s.tx (by cases c <;> decide)
      · rfl

theorem normalizeNext (h : s.Feeds c p tx) (eventId traceId : Ulid) (ingestMs pushMs : Int64) :
    ∃ tx', (s.normalizeNext eventId traceId ingestMs pushMs).Feeds c p tx' ∧ tx'.received = tx.received := by
  unfold IngestSystem.normalizeNext
  split
  · exact ⟨tx,h,rfl⟩
  next x rest hqueue =>
    generalize (⟨x.envelope,eventId,traceId,ingestMs,pushMs⟩ : Arrival) = arrival
    have hchannel := s.normalizer.step_channel cfg.ulid arrival c
    have hdrops := s.normalizer.step_drops cfg.ulid arrival c
    have haccepts := (congrFun (s.normalizer.step_accepts cfg.ulid arrival) c).trans h.accepts
    rw [h.channel,h.accepts,Option.map_some] at hchannel
    simp only [Normalizer.lostBy,h.channel,h.accepts] at hdrops
    obtain ⟨hopen,hcases⟩ := offered_or_lost tx h.opened (s.normalizer.step cfg.ulid arrival).1
    have hcount := h.counted
    cases haccept : p (s.normalizer.step cfg.ulid arrival).1 with
    | false =>
      -- the event is not for this consumer
      have hfilter : (s.pushed ++ [(s.normalizer.step cfg.ulid arrival).1]).filter p = s.pushed.filter p := by
        simp [haccept]
      rw [haccept] at hchannel hdrops
      refine ⟨tx,⟨hchannel,h.opened,haccepts,?_,?_⟩,rfl⟩
      · change tx.sent.Sublist (List.filter p (_ ++ [_]))
        rw [hfilter]
        exact h.ordered
      · change _+(s.normalizer.step cfg.ulid arrival).2.metrics.consumerDrops c.name =
          (List.filter p (_ ++ [_])).length
        rw [hfilter,hdrops]
        exact hcount
    | true =>
      have hfilter : (s.pushed ++ [(s.normalizer.step cfg.ulid arrival).1]).filter p =
          s.pushed.filter p ++ [(s.normalizer.step cfg.ulid arrival).1] := by simp [haccept]
      rw [haccept,if_pos rfl] at hchannel hdrops
      refine ⟨tx.apply (.trySend (s.normalizer.step cfg.ulid arrival).1),⟨hchannel,hopen,haccepts,?_,?_⟩,
        Channel.received_apply_trySend _ _⟩
      · change (tx.apply (.trySend (s.normalizer.step cfg.ulid arrival).1)).sent.Sublist
          (List.filter p (_ ++ [_]))
        rw [hfilter]
        rcases hcases with ⟨hsent,_⟩ | ⟨hsent,_⟩
        · exact hsent ▸ h.ordered.append (.refl _)
        · exact hsent ▸ h.ordered.trans (List.sublist_append_left _ _)
      · have hlength : (tx.apply (.trySend (s.normalizer.step cfg.ulid arrival).1)).sent.length+lost tx =
            tx.sent.length+1 := by
          rcases hcases with ⟨hsent,hkept⟩ | ⟨hsent,hkept⟩
          · rw [hsent,hkept,List.length_append,List.length_singleton]
          · rw [hsent,hkept]
        change _+(s.normalizer.step cfg.ulid arrival).2.metrics.consumerDrops c.name =
          (List.filter p (_ ++ [_])).length
        rw [hfilter,hdrops,List.length_append,List.length_singleton]
        omega

/-- The consumer takes messages from the front of its channel. -/
theorem consume (h : s.Feeds c p tx) (takes : Consumer → ℕ) :
    (s.step (.consume takes)).Feeds c p (Channel.recv^[takes c] tx) := by
  obtain ⟨hsent,hclosed⟩ := Normalizer.sent_recv_iterate tx (takes c)
  have haccepts := (congrFun (s.normalizer.accepts_drain takes) c).trans h.accepts
  refine ⟨?_,hclosed.trans h.opened,haccepts,?_,?_⟩
  · change (s.normalizer.drain takes).channel c = _
    rw [Normalizer.channel_drain,h.channel,Option.map_some]
  · rw [hsent]
    exact h.ordered
  · rw [hsent]
    exact h.counted

theorem step (h : s.Feeds c p tx) (a : IngestAction) : ∃ tx', (s.step a).Feeds c p tx' ∧
    ((∀ takes, a = .consume takes → takes c = 0) → tx'.received = tx.received) := by
  cases a with
  | http authorization body nowMs rate => exact ⟨tx,h.http authorization body nowMs rate,fun _ => rfl⟩
  | wsOpen token =>
    refine ⟨tx,?_,fun _ => rfl⟩
    simp only [IngestSystem.step,openSession]
    split
    · exact h
    · exact h.of_eq rfl rfl rfl
  | wsMessage i body nowMs rate => exact ⟨tx,h.message i body nowMs rate,fun _ => rfl⟩
  | wsClose i => exact ⟨tx,h.of_eq rfl rfl rfl,fun _ => rfl⟩
  | send i => exact ⟨tx,h.send i,fun _ => rfl⟩
  | poll i polled nowMs => exact ⟨tx,h.poll i polled nowMs,fun _ => rfl⟩
  | normalize eventId traceId ingestMs pushMs =>
    obtain ⟨tx',htx',hreceived⟩ := h.normalizeNext eventId traceId ingestMs pushMs
    exact ⟨tx',htx',fun _ => hreceived⟩
  | consume takes =>
    refine ⟨_,h.consume takes,fun htakes => ?_⟩
    rw [htakes takes rfl]
    rfl
  | close => exact ⟨tx,h.of_eq rfl rfl rfl,fun _ => rfl⟩

end Feeds

/-- What the normalizer received and what it made of it. -/
theorem keeps_effect (h : List.Forall₂ Keeps s.tx.received s.pushed) (heffect : Effect s a s') :
    List.Forall₂ Keeps s'.tx.received s'.pushed := by
  cases heffect with
  | quiet frame _ _ | accept _ frame _ _ _ | stop _ _ frame _ _ _ | enqueue _ _ _ frame _ _ _ _
  | publish _ _ _ _ _ _ frame _ _ _ _ _ _ =>
    rw [frame.received,frame.pushed]
    exact h
  | normalize x rest arrival queue envelope received pushed normalizer batches sent =>
    rw [received,pushed]
    exact List.rel_append h (.cons (keeps_step cfg.ulid s.normalizer envelope) .nil)

/-- The bus is empty, and the cold writer missed nothing. -/
structure Drained (s : IngestSystem cfg) : Prop where
  queue : s.tx.queue = []
  drops : s.normalizer.metrics.consumerDrops "cold_writer" = 0

/-- All that holds of the way from the bus to the cold writer. -/
structure Streams (s : IngestSystem cfg) : Prop where
  ordered : s.Ordered
  keeps : List.Forall₂ Keeps s.tx.received s.pushed
  cold : ∃ tx, s.Feeds .coldWriter (fun _ => true) tx

theorem Streams.step (h : s.Streams) (a : IngestAction) : (s.step a).Streams where
  ordered := h.ordered.step (s.step_effect a)
  keeps := keeps_effect h.keeps (s.step_effect a)
  cold := by
    obtain ⟨tx,htx⟩ := h.cold
    obtain ⟨tx',htx',_⟩ := htx.step a
    exact ⟨tx',htx'⟩

theorem Streams.spawn (schemas : SchemaIndex) (capacity : ℕ) (embedSink : Option EmbedSink)
    (forwardTx : Option (Channel Event)) (brokers : List MqttSubscriber) :
    (IngestSystem.spawn (.new schemas (some (.new capacity)) embedSink forwardTx) brokers :
      IngestSystem cfg).Streams :=
  ⟨.spawn (.new rfl rfl) brokers,.nil,_,rfl,rfl,rfl,List.Sublist.refl _,rfl⟩

/-- Every envelope that was sent made an event, and every event is of one. -/
theorem Streams.keeps_sent (h : s.Streams) (hqueue : s.tx.queue = []) :
    List.Forall₂ Keeps s.tx.sent s.pushed := by
  rw [Channel.sent,hqueue,List.append_nil]
  exact h.keeps

end IngestSystem

end Percept
