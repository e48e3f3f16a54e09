import Percept.Normalizer

/-! What a slow consumer can change: its own stream and its own drop counter. -/
namespace Percept

/-- All counters but the drops of the consumers. -/
def Metrics.withoutDrops (m : Metrics) : Metrics := { m with consumerDrops := fun _ => 0 }

section Offer

variable {α : Type} {consumer other : String} {e : Event} {x : α} {m : Metrics}

@[simp] theorem withoutDrops_offer (tx : Channel α) :
    (offer consumer x tx m).2.withoutDrops = m.withoutDrops := by
  unfold offer
  split <;> rfl

@[simp] theorem withoutDrops_offerTo (tx : Option (Channel Event)) :
    (offerTo consumer e tx m).2.withoutDrops = m.withoutDrops := by
  cases tx with
  | none => rfl
  | some tx => exact withoutDrops_offer tx

@[simp] theorem withoutDrops_offerToEmbedder (sink : Option EmbedSink) :
    (offerToEmbedder e sink m).2.withoutDrops = m.withoutDrops := by
  cases sink with
  | none => rfl
  | some sink =>
    simp only [offerToEmbedder]
    split
    · exact withoutDrops_offer sink.tx
    · rfl

theorem drops_offer_ne (tx : Channel α) (h : other ≠ consumer) :
    (offer consumer x tx m).2.consumerDrops other = m.consumerDrops other := by
  unfold offer
  split
  · rfl
  · exact bump_ne _ h
  · rfl

theorem drops_offerTo_ne (tx : Option (Channel Event)) (h : other ≠ consumer) :
    (offerTo consumer e tx m).2.consumerDrops other = m.consumerDrops other := by
  cases tx with
  | none => rfl
  | some tx => exact drops_offer_ne tx h

theorem drops_offerToEmbedder_ne (sink : Option EmbedSink) (h : other ≠ "embedder") :
    (offerToEmbedder e sink m).2.consumerDrops other = m.consumerDrops other := by
  cases sink with
  | none => rfl
  | some sink =>
    simp only [offerToEmbedder]
    split
    · exact drops_offer_ne sink.tx h
    · rfl

/-- The channel after an offer, whatever the counters are. -/
theorem offer_fst (tx : Channel α) :
    (offer consumer x tx m).1 = tx.apply (.trySend x) := by
  unfold offer Channel.apply
  split <;> simp only [*]

/-- Drops that an offer to this channel counts. -/
def lost (tx : Channel α) : ℕ := if tx.closed || tx.hasRoom then 0 else 1

theorem drops_offer (tx : Channel α) :
    (offer consumer x tx m).2.consumerDrops consumer = m.consumerDrops consumer+lost tx := by
  cases hroom : tx.hasRoom with
  | true =>
    obtain ⟨tx',htx,_⟩ := Channel.trySend_ok hroom x
    simp [offer,htx,lost,hroom]
  | false =>
    have herr := Channel.trySend_error hroom x
    cases hclosed : tx.closed <;>
      simp [offer,herr,lost,hroom,hclosed,Metrics.incConsumerDrop]

/-- An open channel takes the event, or the drop is counted. -/
theorem offered_or_lost (tx : Channel α) (hopen : tx.closed = false) (x : α) :
    (tx.apply (.trySend x)).closed = false ∧
      (((tx.apply (.trySend x)).sent = tx.sent ++ [x] ∧ lost tx = 0) ∨
        ((tx.apply (.trySend x)).sent = tx.sent ∧ lost tx = 1)) := by
  cases hroom : tx.hasRoom with
  | true =>
    obtain ⟨tx',htx,hsent⟩ := Channel.trySend_ok hroom x
    have hopen' := (Channel.closed_of_trySend htx).trans hopen
    simp [Channel.apply,htx,hopen',hsent,lost,hroom]
  | false =>
    have herr := Channel.trySend_error hroom x
    simp [Channel.apply,herr,hopen,lost,hroom]

end Offer

namespace Normalizer

variable {config : HotRingConfig} {ulid : UlidText} {n n' : Normalizer config} {a : Arrival}

@[simp] theorem withoutDrops_fanOut (n : Normalizer config) (e : Event) :
    (n.fanOut e).metrics.withoutDrops = n.metrics.withoutDrops := by
  simp [fanOut]

theorem fanOut_channel (n : Normalizer config) (e : Event) (c : Consumer) :
    (n.fanOut e).channel c = (n.channel c).map fun tx =>
      if n.accepts c e then tx.apply (.trySend e) else tx := by
  cases c with
  | coldWriter =>
    cases h : n.coldTx <;> simp [fanOut,channel,accepts,offerTo,offer_fst,h]
  | embedder =>
    cases h : n.embedSink with
    | none => simp [fanOut,channel,offerToEmbedder,h]
    | some sink =>
      cases hembed : sink.selector.shouldEmbed e.sourceId e.kind <;>
        simp [fanOut,channel,accepts,offerToEmbedder,offer_fst,h,hembed]
  | forwarder =>
    cases h : n.forwardTx <;> simp [fanOut,channel,accepts,offerTo,offer_fst,h]

/-- Drops that one event costs a consumer. -/
def lostBy (n : Normalizer config) (c : Consumer) (e : Event) : ℕ :=
  match n.channel c with
  | none => 0
  | some tx => if n.accepts c e then lost tx else 0

theorem fanOut_drops (n : Normalizer config) (e : Event) (c : Consumer) :
    (n.fanOut e).metrics.consumerDrops c.name = n.metrics.consumerDrops c.name+n.lostBy c e := by
  have hto : ∀ {name : String} {tx : Option (Channel Event)} {m : Metrics},
      (offerTo name e tx m).2.consumerDrops name = m.consumerDrops name+
        (tx.map lost).getD 0 := by
    intro name tx m
    cases tx with
    | none => rfl
    | some tx => exact drops_offer tx
  cases c with
  | coldWriter =>
    simp only [fanOut,Consumer.name]
    rw [drops_offerTo_ne _ (by decide),drops_offerToEmbedder_ne _ (by decide),hto]
    cases h : n.coldTx <;> simp [lostBy,channel,accepts,h]
  | embedder =>
    simp only [fanOut,Consumer.name]
    rw [drops_offerTo_ne _ (by decide)]
    cases h : n.embedSink with
    | none => simp [offerToEmbedder,lostBy,channel,h,drops_offerTo_ne]
    | some sink =>
      cases hembed : sink.selector.shouldEmbed e.sourceId e.kind <;>
        simp [offerToEmbedder,lostBy,channel,accepts,h,hembed,drops_offer,drops_offerTo_ne]
  | forwarder =>
    simp only [fanOut,Consumer.name]
    rw [hto,drops_offerToEmbedder_ne _ (by decide),drops_offerTo_ne _ (by decide)]
    cases h : n.forwardTx <;> simp [lostBy,channel,accepts,h]

theorem fanOut_accepts (n : Normalizer config) (e : Event) : (n.fanOut e).accepts = n.accepts := by
  funext c x
  cases c with
  | embedder =>
    cases h : n.embedSink with
    | none => simp [fanOut,accepts,offerToEmbedder,h]
    | some sink =>
      cases hembed : sink.selector.shouldEmbed e.sourceId e.kind <;>
        simp [fanOut,accepts,offerToEmbedder,h,hembed]
  | coldWriter | forwarder => rfl

/-- Two normalizers that differ at most in what belongs to the consumers. -/
structure Agree (n n' : Normalizer config) : Prop where
  hotRings : n.hotRings = n'.hotRings
  schemas : n.schemas = n'.schemas
  seqBySource : n.seqBySource = n'.seqBySource
  counters : n.metrics.withoutDrops = n'.metrics.withoutDrops

theorem normalize_agree (ulid : UlidText) (h : n.Agree n') (a : Arrival) :
    (n.normalize ulid a).1 = (n'.normalize ulid a).1 ∧
      (n.normalize ulid a).2.Agree (n'.normalize ulid a).2 := by
  constructor
  · simp only [normalize,h.schemas,h.seqBySource]
  · refine ⟨h.hotRings,h.schemas,by simp only [normalize,h.seqBySource],?_⟩
    simp only [normalize,h.schemas]
    split
    · exact congrArg (fun m : Metrics => m.incSchemaInvalid.incSourceError _ _ _) h.counters
    · exact h.counters

/-- A step gives the same event and the same shared state. -/
theorem step_agree (ulid : UlidText) (h : n.Agree n') (a : Arrival) :
    (n.step ulid a).1 = (n'.step ulid a).1 ∧ (n.step ulid a).2.Agree (n'.step ulid a).2 := by
  obtain ⟨hevent,hnorm⟩ := normalize_agree ulid h a
  refine ⟨hevent,?_,hnorm.schemas,hnorm.seqBySource,?_⟩
  · change ((n.normalize ulid a).2.hotRings.push (n.normalize ulid a).1 a.pushMs).2 = _
    rw [hnorm.hotRings,hevent]
    rfl
  · have hcounters : ∀ {m m' : Metrics}, m.withoutDrops = m'.withoutDrops →
        (m.incAccepted a.envelope.tokenName).withoutDrops =
          (m'.incAccepted a.envelope.tokenName).withoutDrops :=
      fun h => congrArg (fun m : Metrics => m.incAccepted a.envelope.tokenName) h
    apply hcounters
    rw [withoutDrops_fanOut,withoutDrops_fanOut]
    exact hnorm.counters

@[simp] theorem channel_drain (n : Normalizer config) (takes : Consumer → ℕ) (c : Consumer) :
    (n.drain takes).channel c = (n.channel c).map Channel.recv^[takes c] := by
  cases c with
  | embedder => cases h : n.embedSink <;> simp [drain,channel,h]
  | coldWriter | forwarder => rfl

@[simp] theorem accepts_drain (n : Normalizer config) (takes : Consumer → ℕ) :
    (n.drain takes).accepts = n.accepts := by
  funext c e
  cases c with
  | embedder => cases h : n.embedSink <;> simp [drain,accepts,h]
  | coldWriter | forwarder => rfl

/-- A step treats a consumer as its offer does. -/
theorem step_channel (ulid : UlidText) (n : Normalizer config) (a : Arrival) (c : Consumer) :
    (n.step ulid a).2.channel c = (n.channel c).map fun tx =>
      if n.accepts c (n.step ulid a).1 then tx.apply (.trySend (n.step ulid a).1) else tx :=
  fanOut_channel
    { (n.normalize ulid a).2 with hotRings := (n.hotRings.push (n.step ulid a).1 a.pushMs).2 } _ c

theorem step_accepts (ulid : UlidText) (n : Normalizer config) (a : Arrival) :
    (n.step ulid a).2.accepts = n.accepts :=
  fanOut_accepts
    { (n.normalize ulid a).2 with hotRings := (n.hotRings.push (n.step ulid a).1 a.pushMs).2 } _

theorem normalize_drops (ulid : UlidText) (n : Normalizer config) (a : Arrival) :
    (n.normalize ulid a).2.metrics.consumerDrops = n.metrics.consumerDrops := by
  simp only [normalize]
  split <;> rfl

theorem step_drops (ulid : UlidText) (n : Normalizer config) (a : Arrival) (c : Consumer) :
    (n.step ulid a).2.metrics.consumerDrops c.name =
      n.metrics.consumerDrops c.name+n.lostBy c (n.step ulid a).1 := by
  rw [← normalize_drops ulid n a]
  exact fanOut_drops
    { (n.normalize ulid a).2 with hotRings := (n.hotRings.push (n.step ulid a).1 a.pushMs).2 } _ c

variable {takes takes' : Consumer → ℕ → ℕ}

theorem drain_agree (h : n.Agree n') (t t' : Consumer → ℕ) : (n.drain t).Agree (n'.drain t') :=
  ⟨h.hotRings,h.schemas,h.seqBySource,h.counters⟩

/-- Two runs over the same arrivals push the same events and agree at the end, whatever the
consumers take in the meantime. -/
theorem run_agree (h : n.Agree n') (i : ℕ) (l : List Arrival) :
    (run ulid takes i l n).1 = (run ulid takes' i l n').1 ∧
      (run ulid takes i l n).2.Agree (run ulid takes' i l n').2 := by
  induction l generalizing n n' i with
  | nil => exact ⟨rfl,h⟩
  | cons a l ih =>
    obtain ⟨hevent,hstep⟩ := step_agree ulid
      (drain_agree h (fun c => takes c i) fun c => takes' c i) a
    obtain ⟨hevents,hrun⟩ := ih hstep (i+1)
    exact ⟨congrArg₂ List.cons hevent hevents,hrun⟩

/-- Two runs in which one consumer takes the same treat it the same. -/
theorem run_channel (ulid : UlidText) (takes takes' : Consumer → ℕ → ℕ) {c : Consumer}
    (h : n.Agree n') (hchannel : n.channel c = n'.channel c)
    (haccepts : n.accepts c = n'.accepts c) (htakes : takes c = takes' c) (i : ℕ)
    (l : List Arrival) :
    (run ulid takes i l n).2.channel c = (run ulid takes' i l n').2.channel c := by
  induction l generalizing n n' i with
  | nil => exact hchannel
  | cons a l ih =>
    obtain ⟨hevent,hstep⟩ := step_agree ulid
      (drain_agree h (fun c => takes c i) fun c => takes' c i) a
    refine ih hstep ?_ ?_ (i+1)
    · simp only [step_channel,channel_drain,accepts_drain,hchannel,haccepts,htakes,hevent]
    · simpa only [step_accepts,accepts_drain] using haccepts

/-- What a run adds to the stream of a consumer, and what it adds to the drops. -/
structure Accounts (n : Normalizer config) (c : Consumer) (events : List Event)
    (tx tx' : Channel Event) (n' : Normalizer config) : Prop where
  closed : tx'.closed = false
  stream : ∃ new, tx'.sent = tx.sent ++ new ∧ new.Sublist (events.filter (n.accepts c)) ∧
    new.length+n'.metrics.consumerDrops c.name =
      n.metrics.consumerDrops c.name+(events.filter (n.accepts c)).length

theorem sent_recv_iterate (tx : Channel Event) (k : ℕ) :
    (Channel.recv^[k] tx).sent = tx.sent ∧ (Channel.recv^[k] tx).closed = tx.closed := by
  induction k generalizing tx with
  | zero => exact ⟨rfl,rfl⟩
  | succ k ih =>
    obtain ⟨hsent,hclosed⟩ := ih tx.recv
    rw [Function.iterate_succ_apply]
    exact ⟨hsent.trans (Channel.sent_recv tx),hclosed.trans (Channel.closed_recv tx)⟩

theorem run_accounts (ulid : UlidText) (takes : Consumer → ℕ → ℕ) {c : Consumer}
    {tx : Channel Event} (hc : n.channel c = some tx)
    (hopen : tx.closed = false) (i : ℕ) (l : List Arrival) :
    ∃ tx', (run ulid takes i l n).2.channel c = some tx' ∧
      n.Accounts c (run ulid takes i l n).1 tx tx' (run ulid takes i l n).2 := by
  induction l generalizing n tx i with
  | nil => exact ⟨tx,hc,hopen,[],by simp [run]⟩
  | cons a l ih =>
    generalize hd : n.drain (fun c => takes c i) = d
    obtain ⟨hsent,hclosed⟩ := sent_recv_iterate tx (takes c i)
    have hdc : d.channel c = some (Channel.recv^[takes c i] tx) := by simp [← hd,hc]
    have hda : d.accepts = n.accepts := by simp [← hd]
    have hdd : d.metrics = n.metrics := by rw [← hd]; rfl
    generalize Channel.recv^[takes c i] tx = tx₁ at hsent hclosed hdc
    rcases hs : d.step ulid a with ⟨e,n₁⟩
    have hn₁c := step_channel ulid d a c
    have hn₁a := step_accepts ulid d a
    have hn₁d := step_drops ulid d a c
    have hlost : d.lostBy c e = if n.accepts c e then lost tx₁ else 0 := by
      simp only [lostBy,hdc,hda]
    rw [hs,hdc,hda] at hn₁c
    rw [hs,hda] at hn₁a
    rw [hs,hdd,hlost] at hn₁d
    simp only [Option.map_some] at hn₁c hn₁d
    have hrun : run ulid takes i (a::l) n =
        (e::(run ulid takes (i+1) l n₁).1,(run ulid takes (i+1) l n₁).2) := by
      simp only [run,hd,hs]
    rw [hrun]
    cases hacc : n.accepts c e with
    | false =>
      rw [hacc,if_neg Bool.false_ne_true] at hn₁c hn₁d
      obtain ⟨tx',htx',hclosed',new,hnew,hsub,hcount⟩ := ih hn₁c (hclosed.trans hopen) (i+1)
      rw [hn₁a] at hsub hcount
      refine ⟨tx',htx',hclosed',new,by rw [hnew,hsent],?_,?_⟩
      · rwa [List.filter_cons_of_neg (by simp [hacc])]
      · rw [List.filter_cons_of_neg (by simp [hacc]),hcount,hn₁d]
        rfl
    | true =>
      rw [hacc,if_pos rfl] at hn₁c hn₁d
      obtain ⟨hopen₁,hcases⟩ := offered_or_lost tx₁ (hclosed.trans hopen) e
      obtain ⟨tx',htx',hclosed',new,hnew,hsub,hcount⟩ := ih hn₁c hopen₁ (i+1)
      rw [hn₁a] at hsub hcount
      rw [hn₁d] at hcount
      rcases hcases with ⟨hsent₁,hkept⟩ | ⟨hsent₁,hkept⟩
      · refine ⟨tx',htx',hclosed',e::new,by rw [hnew,hsent₁,hsent]; simp,?_,?_⟩
        · rw [List.filter_cons_of_pos hacc]
          exact hsub.cons_cons e
        · rw [List.filter_cons_of_pos hacc,List.length_cons,List.length_cons]
          dsimp only
          omega
      · refine ⟨tx',htx',hclosed',new,by rw [hnew,hsent₁,hsent],?_,?_⟩
        · rw [List.filter_cons_of_pos hacc]
          exact hsub.cons e
        · rw [List.filter_cons_of_pos hacc,List.length_cons]
          dsimp only
          omega

/-- The events of the consumer's channel so far, received or still queued. -/
def delivered (n : Normalizer config) (c : Consumer) : List Event :=
  ((n.channel c).map Channel.sent).getD []

end Normalizer

/-- The capacity of a channel, and how many messages its consumer takes before each step. -/
structure FillHistory where
  capacity : ℕ
  takes : ℕ → ℕ

section

variable (ulid : UlidText) (config : HotRingConfig) (schemas : SchemaIndex)
  (selector : EmbedSelector) (fills : Consumer → Option FillHistory)

/-- A new normalizer with the consumers that have a fill history. -/
def spawnNormalizer : Normalizer config where
  hotRings := .new
  metrics := .new
  schemas
  coldTx := (fills .coldWriter).map fun f => .new f.capacity
  embedSink := (fills .embedder).map fun f => ⟨.new f.capacity,selector⟩
  forwardTx := (fills .forwarder).map fun f => .new f.capacity
  seqBySource := fun _ => 0

/-- The normalizer's life up to now: what it pushed, and its state. -/
def normalizerRun (l : List Arrival) : List Event × Normalizer config :=
  Normalizer.run ulid (fun c i => ((fills c).map fun f => f.takes i).getD 0) 0 l
    (spawnNormalizer config schemas selector fills)

/-- The events of a list that are offered to a consumer. -/
def offeredTo (c : Consumer) (events : List Event) : List Event :=
  match c with
  | .embedder => events.filter fun e => selector.shouldEmbed e.sourceId e.kind
  | .coldWriter | .forwarder => events

/-- Whatever the fill histories, the pushes and the shared state are the same; the stream of a
consumer depends on its own history only, is in order, and misses exactly what its drop
counter counts. -/
theorem consumers_isolated (fills' : Consumer → Option FillHistory) (l : List Arrival) :
    let r := normalizerRun ulid config schemas selector fills l
    let r' := normalizerRun ulid config schemas selector fills' l
    r.1 = r'.1 ∧ r.2.Agree r'.2 ∧ ∀ c,
      (fills c = fills' c → r.2.delivered c = r'.2.delivered c) ∧
      ((fills c).isSome → (r.2.delivered c).Sublist (offeredTo selector c r.1) ∧
        (r.2.delivered c).length+r.2.metrics.consumerDrops c.name =
          (offeredTo selector c r.1).length) := by
  intro r r'
  have hagree : (spawnNormalizer config schemas selector fills).Agree
      (spawnNormalizer config schemas selector fills') := ⟨rfl,rfl,rfl,rfl⟩
  obtain ⟨hpushed,hstate⟩ := Normalizer.run_agree hagree 0 l
  refine ⟨hpushed,hstate,fun c => ⟨fun hc => ?_,fun hc => ?_⟩⟩
  · have hchannel : (spawnNormalizer config schemas selector fills).channel c =
        (spawnNormalizer config schemas selector fills').channel c := by
      cases c <;> simp [spawnNormalizer,Normalizer.channel,hc]
    have haccepts : (spawnNormalizer config schemas selector fills).accepts c =
        (spawnNormalizer config schemas selector fills').accepts c := by
      funext e
      cases c <;> simp [spawnNormalizer,Normalizer.accepts,hc]
    have hrun := Normalizer.run_channel ulid
      (fun c i => ((fills c).map fun f => f.takes i).getD 0)
      (fun c i => ((fills' c).map fun f => f.takes i).getD 0) hagree hchannel haccepts
      (by simp only [hc]) 0 l
    exact congrArg (fun tx => (Option.map Channel.sent tx).getD []) hrun
  · obtain ⟨f,hf⟩ := Option.isSome_iff_exists.mp hc
    have hchannel : (spawnNormalizer config schemas selector fills).channel c =
        some (.new f.capacity) := by
      cases c <;> simp [spawnNormalizer,Normalizer.channel,hf]
    have hoffered : ∀ events : List Event, events.filter
        ((spawnNormalizer config schemas selector fills).accepts c) = offeredTo selector c events := by
      intro events
      cases c with
      | embedder =>
        exact List.filter_congr fun e _ => by simp [spawnNormalizer,Normalizer.accepts,hf]
      | coldWriter | forwarder => exact List.filter_eq_self.mpr fun _ _ => rfl
    obtain ⟨tx',htx',_,new,hnew,hsub,hcount⟩ := Normalizer.run_accounts ulid
      (fun c i => ((fills c).map fun f => f.takes i).getD 0) hchannel rfl 0 l
    have hlast : r.2.channel c = some tx' := htx'
    have hdelivered : r.2.delivered c = new := by
      rw [Normalizer.delivered,hlast]
      exact hnew
    rw [hoffered] at hsub hcount
    rw [hdelivered]
    exact ⟨hsub,hcount.trans (Nat.zero_add _)⟩

end

end Percept
