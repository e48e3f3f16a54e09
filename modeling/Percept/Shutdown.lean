import Percept.ConsumerIsolation
import Percept.Lib.Runs
import Percept.Server

/-! What a shutdown does to acknowledged events. Every ticket is in exactly one place: with its
handler, on the bus, shed, in the cold writer's channel, or in the writer's hands. `run` waits
until the bus is empty and for nothing behind it. -/
namespace Percept

namespace Server

variable {cfg : ServerConfig} {s s' : Server cfg} {ulid : UlidText}

/-- Tickets that handlers have still to send. -/
def pending (s : Server cfg) : List ℕ :=
  s.handlers.flatMap fun h => h.pending.map Ticketed.ticket

/-- Tickets that were taken by the bus, by the place where they are now. -/
def passed (s : Server cfg) : List ℕ :=
  s.bus.queue.map Ticketed.ticket ++ (s.shed ++
    (s.cold.queue.map Ticketed.ticket ++ s.writer.held.map Ticketed.ticket))

/-- No ticket is in two places, and what is acknowledged was taken by the bus. -/
structure Tickets (s : Server cfg) : Prop where
  nodup : (s.pending ++ s.passed).Nodup
  fresh : ∀ t ∈ s.pending ++ s.passed, t < s.nextTicket
  sent : ∀ h ∈ s.handlers, ∀ t ∈ h.sent, t ∈ s.passed
  acked : ∀ t ∈ s.acked, t ∈ s.passed

/-- Tickets only move, and new ones are fresh. -/
theorem Tickets.move (h : s.Tickets) (new : List ℕ) (hnew : new.Nodup)
    (hrange : ∀ t ∈ new, s.nextTicket ≤ t ∧ t < s'.nextTicket) (hnext : s.nextTicket ≤ s'.nextTicket)
    (hsub : List.Subperm (s'.pending ++ s'.passed) (new ++ (s.pending ++ s.passed)))
    (hsent : ∀ h ∈ s'.handlers, ∀ t ∈ h.sent, t ∈ s'.passed)
    (hacked : ∀ t ∈ s'.acked, t ∈ s'.passed) : s'.Tickets := by
  have hall : (new ++ (s.pending ++ s.passed)).Nodup := by
    refine List.nodup_append.mpr ⟨hnew,h.nodup,fun a ha b hb => ?_⟩
    rintro rfl
    exact absurd (h.fresh a hb) (not_lt.mpr (hrange a ha).1)
  obtain ⟨l,hperm,hl⟩ := hsub
  refine ⟨hperm.nodup_iff.mp (hl.nodup hall),fun t ht => ?_,hsent,hacked⟩
  rcases List.mem_append.mp (hl.subset (hperm.mem_iff.mpr ht)) with ht | ht
  · exact (hrange t ht).2
  · exact (h.fresh t ht).trans_le hnext

/-- A step behind the handlers permutes the places. -/
theorem Tickets.shift (h : s.Tickets) (hhandlers : s'.handlers = s.handlers)
    (hnext : s'.nextTicket = s.nextTicket) (hacked : s'.acked = s.acked)
    (hpassed : s'.passed.Perm s.passed) : s'.Tickets := by
  refine h.move [] List.nodup_nil (by simp) hnext.ge ?_ ?_ ?_
  · have hpending : s'.pending = s.pending := by rw [pending,hhandlers,pending]
    rw [hpending]
    exact (hpassed.append_left _).subperm
  · rw [hhandlers]
    exact fun x hx t ht => hpassed.mem_iff.mpr (h.sent x hx t ht)
  · rw [hacked]
    exact fun t ht => hpassed.mem_iff.mpr (h.acked t ht)

theorem Tickets.accept (h : s.Tickets) (tokenName : String) (events : List IngestEvent) :
    (s.accept tokenName events).Tickets := by
  unfold Server.accept
  split
  · exact h
  · refine h.move (List.range' s.nextTicket events.length) List.nodup_range' ?_
      (Nat.le_add_right _ _) ?_ ?_ h.acked
    · intro t ht
      obtain ⟨hle,hlt⟩ := List.mem_range'_1.mp ht
      exact ⟨hle,hlt⟩
    · have hnew : ((events.zipIdx s.nextTicket).map fun x => (⟨x.2,x.1⟩ : Ticketed IngestEvent)).map
          Ticketed.ticket = List.range' s.nextTicket events.length := by
        rw [List.map_map,← List.zipIdx_map_snd s.nextTicket events]
        rfl
      have hpending : pending { s with
          handlers := s.handlers ++
            [⟨tokenName,[],(events.zipIdx s.nextTicket).map fun x => ⟨x.2,x.1⟩⟩]
          nextTicket := s.nextTicket+events.length } =
          s.pending ++ List.range' s.nextTicket events.length := by
        rw [pending,List.flatMap_append,List.flatMap_singleton,hnew,pending]
      rw [hpending,← List.append_assoc]
      exact (List.perm_append_comm.append_right s.passed).subperm
    · intro x hx t ht
      rcases List.mem_append.mp hx with hx | hx
      · exact h.sent x hx t ht
      · rw [List.mem_singleton.mp hx] at ht
        cases ht

/-- The tickets that wait, with one handler told apart. -/
theorem pending_of_split {before after : List Handler} {handler : Handler} {m : Ticketed IngestEvent}
    {rest : List (Ticketed IngestEvent)} (hsplit : s.handlers = before ++ handler::after)
    (hpending : handler.pending = m::rest) :
    s.pending = before.flatMap (fun h => h.pending.map Ticketed.ticket) ++
      (m.ticket::rest.map Ticketed.ticket ++
        after.flatMap fun h => h.pending.map Ticketed.ticket) := by
  rw [pending,hsplit,List.flatMap_append,List.flatMap_cons,hpending,List.map_cons]

/-- What is put on the bus has passed. -/
theorem passed_of_trySend (s' : Server cfg) {m : Ticketed IngestEnvelope}
    (hbus : s.bus.trySend m = .ok s'.bus) (hshed : s'.shed = s.shed) (hcold : s'.cold = s.cold)
    (hwriter : s'.writer = s.writer) : s'.passed.Perm (m.ticket::s.passed) := by
  rw [passed,hshed,hcold,hwriter,Channel.queue_of_trySend hbus,List.map_append,passed]
  exact List.perm_iff_count.mpr fun a => by simp [List.count_cons]; omega

/-- A ticket that waited passes; what was sent and acknowledged may now include it. -/
theorem Tickets.pass (h : s.Tickets) {t₀ : ℕ} (hpassed : s'.passed.Perm (t₀::s.passed))
    (hpending : s.pending.Perm (t₀::s'.pending)) (hnext : s'.nextTicket = s.nextTicket)
    (hsent : ∀ x ∈ s'.handlers, ∀ t ∈ x.sent, t ∈ t₀::s.passed)
    (hacked : ∀ t ∈ s'.acked, t ∈ t₀::s.passed) : s'.Tickets := by
  refine h.move [] List.nodup_nil (by simp) hnext.ge ?_ ?_ ?_
  · have hplaces : (s'.pending ++ t₀::s.passed).Perm (t₀::s'.pending ++ s.passed) := List.perm_middle
    exact ((hpassed.append_left _).trans (hplaces.trans (hpending.symm.append_right _))).subperm
  · exact fun x hx t ht => hpassed.mem_iff.mpr (hsent x hx t ht)
  · exact fun t ht => hpassed.mem_iff.mpr (hacked t ht)

/-- A send that succeeds moves a ticket from its handler to the bus; a handler that stops takes
what it has not sent with it. -/
theorem Tickets.enqueue (h : s.Tickets) (i : ℕ) : (s.enqueue i).Tickets := by
  unfold Server.enqueue
  split
  · exact h
  next handler after hdrop =>
    have hsplit : s.handlers = s.handlers.take i ++ handler::after := by
      rw [← hdrop,List.take_append_drop]
    generalize s.handlers.take i = before at hsplit ⊢
    have hmem : ∀ {x}, x ∈ before ++ after → x ∈ s.handlers := by
      intro x hx
      rw [hsplit]
      rcases List.mem_append.mp hx with hx | hx
      · exact List.mem_append_left _ hx
      · exact List.mem_append_right _ (List.mem_cons_of_mem _ hx)
    have hself : handler ∈ s.handlers := by rw [hsplit]; simp
    split
    · exact h
    next m rest hpending =>
      have hall := pending_of_split hsplit hpending
      split
      next =>
        refine h.move [] List.nodup_nil (by simp) le_rfl ?_ ?_ h.acked
        · refine (List.Sublist.append_right ?_ s.passed).subperm
          rw [hall,pending,List.flatMap_append]
          exact (List.sublist_append_right _ _).append_left _
        · exact fun x hx t ht => h.sent x (hmem hx) t ht
      next bus hbus =>
        have hours : ∀ t ∈ handler.sent ++ [m.ticket], t ∈ m.ticket::s.passed := by
          intro t ht
          rcases List.mem_append.mp ht with ht | ht
          · exact List.mem_cons_of_mem _ (h.sent handler hself t ht)
          · exact List.mem_singleton.mp ht ▸ List.mem_cons_self
        split
        next hlast =>
          obtain rfl : rest = [] := by simpa using hlast
          refine h.pass (passed_of_trySend _ hbus rfl rfl rfl) ?_ rfl ?_ ?_
          · rw [hall,pending,List.flatMap_append]
            exact List.perm_middle
          · exact fun x hx t ht => List.mem_cons_of_mem _ (h.sent x (hmem hx) t ht)
          · intro t ht
            rcases List.mem_append.mp ht with ht | ht
            · exact List.mem_cons_of_mem _ (h.acked t ht)
            · exact hours t ht
        next =>
          refine h.pass (passed_of_trySend _ hbus rfl rfl rfl) ?_ rfl ?_ ?_
          · rw [hall,pending,List.flatMap_append,List.flatMap_cons]
            exact List.perm_middle
          · intro x hx t ht
            rcases List.mem_append.mp hx with hx | hx
            · exact List.mem_cons_of_mem _ (h.sent x (hmem (List.mem_append_left _ hx)) t ht)
            · rcases List.mem_cons.mp hx with rfl | hx
              · exact hours t ht
              · exact List.mem_cons_of_mem _ (h.sent x (hmem (List.mem_append_right _ hx)) t ht)
          · exact fun t ht => List.mem_cons_of_mem _ (h.acked t ht)

theorem Tickets.publish (h : s.Tickets) (envelope : IngestEnvelope) :
    (s.publish envelope).Tickets := by
  have hqueue : (s.publish envelope).bus.queue =
      if s.bus.hasRoom then s.bus.queue ++ [⟨s.nextTicket,envelope⟩] else s.bus.queue :=
    (congrArg Channel.queue (offer_fst s.bus)).trans (s.bus.queue_apply_trySend _)
  have hp : (s.publish envelope).passed.Perm s.passed ∨
      (s.publish envelope).passed.Perm (s.nextTicket::s.passed) := by
    unfold passed
    rw [hqueue]
    cases s.bus.hasRoom with
    | true =>
      refine Or.inr ?_
      rw [if_pos rfl,List.map_append]
      exact List.perm_iff_count.mpr fun a => by simp [List.count_cons,Server.publish]; omega
    | false => exact Or.inl (.refl _)
  have hnext : s.nextTicket ≤ (s.publish envelope).nextTicket := Nat.le_succ _
  rcases hp with hp | hp
  · refine h.move [] List.nodup_nil (by simp) hnext (hp.append_left _).subperm ?_ ?_
    · exact fun x hx t ht => hp.mem_iff.mpr (h.sent x hx t ht)
    · exact fun t ht => hp.mem_iff.mpr (h.acked t ht)
  · refine h.move [s.nextTicket] (List.nodup_singleton _) ?_ hnext ?_ ?_ ?_
    · intro t ht
      rw [List.mem_singleton.mp ht]
      exact ⟨le_rfl,Nat.lt_succ_self _⟩
    · exact ((hp.append_left _).trans List.perm_middle).subperm
    · exact fun x hx t ht => hp.mem_iff.mpr (List.mem_cons_of_mem _ (h.sent x hx t ht))
    · exact fun t ht => hp.mem_iff.mpr (List.mem_cons_of_mem _ (h.acked t ht))

theorem Tickets.normalizeNext (h : s.Tickets) (hopen : s.cold.closed = false)
    (eventId traceId : Ulid) (ingestMs pushMs : Int64) :
    (s.normalizeNext ulid eventId traceId ingestMs pushMs).Tickets := by
  unfold Server.normalizeNext
  split
  · exact h
  next m rest hqueue =>
    refine h.shift rfl rfl rfl ?_
    simp only [passed,Channel.queue_recv,hqueue,List.tail_cons,offer_fst,
      Channel.queue_apply_trySend,hopen]
    cases s.cold.hasRoom <;>
      exact List.perm_iff_count.mpr fun a => by simp [List.count_cons]; omega

theorem Tickets.writerReceive (h : s.Tickets) (commit : Except ColdError Unit) :
    (s.writerReceive commit).Tickets := by
  unfold Server.writerReceive
  split
  next => exact h
  next m rest hqueue =>
    refine h.shift rfl rfl rfl ?_
    have hheld := (s.writer.receive_held cfg.batchSize m commit).map Ticketed.ticket
    simp only [passed,Channel.queue_recv,hqueue,List.tail_cons,List.map_cons]
    refine ((hheld.append_left _).trans ?_).append_left _ |>.append_left _
    exact List.perm_middle

theorem Tickets.flushRest (h : s.Tickets) (commit : Except ColdError Unit) :
    Tickets { s with writer := s.writer.flushRest commit } := by
  refine h.shift rfl rfl rfl ?_
  exact ((((s.writer.flushRest_held commit).map _).append_left _).append_left _).append_left _

/-- What holds as long as the runtime is there. -/
structure Inv (s : Server cfg) : Prop where
  tickets : s.Tickets
  coldOpen : s.cold.closed = false
  coldTx : s.normalizer.coldTx = none
  drops : s.normalizer.metrics.consumerDrops "cold_writer" = s.shed.length
  writer : s.writer.Sound
  idle : s.phase = .joining ∨ s.phase = .returned → s.handlers = []
  drained : s.phase = .returned → s.bus.queue = [] ∧ cfg.mqtt = false

theorem Inv.spawn (schemas : SchemaIndex) (store : ColdStore) :
    (spawn cfg schemas store).Inv := by
  have hplaces : (Server.spawn cfg schemas store).pending ++
      (Server.spawn cfg schemas store).passed = [] := rfl
  refine ⟨⟨?_,?_,?_,?_⟩,rfl,rfl,rfl,.new store,fun _ => rfl,fun h => by cases h⟩
  · rw [hplaces]
    exact List.nodup_nil
  · rw [hplaces]
    exact fun _ h => by cases h
  · exact fun _ h => by cases h
  · exact fun _ h => by cases h

theorem enqueue_frame (s : Server cfg) (i : ℕ) : (s.enqueue i).phase = s.phase ∧
    (s.enqueue i).cold = s.cold ∧ (s.enqueue i).normalizer = s.normalizer ∧
    (s.enqueue i).shed = s.shed ∧ (s.enqueue i).writer = s.writer := by
  unfold enqueue
  split
  · exact ⟨rfl,rfl,rfl,rfl,rfl⟩
  · split
    · exact ⟨rfl,rfl,rfl,rfl,rfl⟩
    · split
      · exact ⟨rfl,rfl,rfl,rfl,rfl⟩
      · split <;> exact ⟨rfl,rfl,rfl,rfl,rfl⟩

theorem enqueue_idle (h : s.handlers = []) (i : ℕ) : s.enqueue i = s := by
  simp [enqueue,h]

theorem Inv.enqueue (h : s.Inv) (i : ℕ) : (s.enqueue i).Inv := by
  by_cases hidle : s.phase = .joining ∨ s.phase = .returned
  · rw [enqueue_idle (h.idle hidle)]
    exact h
  · obtain ⟨hphase,hcold,hnorm,hshed,hwriter⟩ := enqueue_frame s i
    refine ⟨h.tickets.enqueue i,hcold ▸ h.coldOpen,hnorm ▸ h.coldTx,?_,hwriter ▸ h.writer,?_,?_⟩
    · rw [hnorm,hshed]
      exact h.drops
    · rw [hphase]
      exact fun hp => absurd hp hidle
    · rw [hphase]
      exact fun hp => absurd (Or.inr hp) hidle

theorem Inv.accept (h : s.Inv) (hphase : s.phase = .serving ∨ s.phase = .draining)
    (tokenName : String) (events : List IngestEvent) : (s.accept tokenName events).Inv := by
  have htickets := h.tickets.accept tokenName events
  have hnot : ¬ (s.phase = .joining ∨ s.phase = .returned) := by
    rcases hphase with hp | hp <;> simp [hp]
  unfold Server.accept at htickets ⊢
  split
  · exact h
  next hne =>
    rw [if_neg hne] at htickets
    exact ⟨htickets,h.coldOpen,h.coldTx,h.drops,h.writer,fun hp => absurd hp hnot,
      fun hp => absurd (Or.inr hp) hnot⟩

theorem Inv.publish (h : s.Inv) (hmqtt : cfg.mqtt = true) (envelope : IngestEnvelope) :
    (s.publish envelope).Inv := by
  have hdrops : (s.publish envelope).normalizer.metrics.consumerDrops "cold_writer" =
      s.normalizer.metrics.consumerDrops "cold_writer" := drops_offer_ne s.bus (by decide)
  refine ⟨h.tickets.publish envelope,h.coldOpen,h.coldTx,hdrops.trans h.drops,h.writer,h.idle,?_⟩
  intro hp
  exact absurd hmqtt (by simp [(h.drained hp).2])

section NormalizeNext

variable (eventId traceId : Ulid) (ingestMs pushMs : Int64)

theorem normalizeNext_frame (ulid : UlidText) (s : Server cfg) :
    (s.normalizeNext ulid eventId traceId ingestMs pushMs).phase = s.phase ∧
      (s.normalizeNext ulid eventId traceId ingestMs pushMs).handlers = s.handlers ∧
      (s.normalizeNext ulid eventId traceId ingestMs pushMs).writer = s.writer := by
  unfold normalizeNext
  split <;> exact ⟨rfl,rfl,rfl⟩

theorem normalizeNext_cold (hopen : s.cold.closed = false) :
    (s.normalizeNext ulid eventId traceId ingestMs pushMs).cold.closed = false := by
  unfold normalizeNext
  split
  · exact hopen
  · exact (congrArg Channel.closed (offer_fst s.cold)).trans (offered_or_lost s.cold hopen _).1

theorem normalizeNext_coldTx (hcold : s.normalizer.coldTx = none) :
    (s.normalizeNext ulid eventId traceId ingestMs pushMs).normalizer.coldTx = none := by
  unfold normalizeNext
  split
  · exact hcold
  · change (offerTo _ _ s.normalizer.coldTx _).1 = none
    rw [hcold]
    rfl

/-- The send to the cold writer is the only one that counts a drop of the cold writer. -/
theorem normalizeNext_drops (hopen : s.cold.closed = false) (hcold : s.normalizer.coldTx = none)
    (h : s.normalizer.metrics.consumerDrops "cold_writer" = s.shed.length) :
    (s.normalizeNext ulid eventId traceId ingestMs pushMs).normalizer.metrics.consumerDrops
        "cold_writer" =
      (s.normalizeNext ulid eventId traceId ingestMs pushMs).shed.length := by
  unfold normalizeNext
  split
  · exact h
  next m rest _ =>
    generalize Arrival.mk m.val eventId traceId ingestMs pushMs = a
    have hnorm := Normalizer.normalize_drops ulid s.normalizer a
    have hcoldTx : (s.normalizer.normalize ulid a).2.coldTx = none := hcold
    generalize s.normalizer.normalize ulid a = out at hnorm hcoldTx ⊢
    obtain ⟨e,rings,metrics,schemas,coldTx,embedSink,forwardTx,seqs⟩ := out
    obtain rfl : coldTx = none := hcoldTx
    have hfan := Normalizer.fanOut_drops (⟨(rings.push e pushMs).2,
      (offer "cold_writer" (⟨m.ticket,e⟩ : Ticketed Event) s.cold metrics).2,schemas,none,embedSink,
      forwardTx,seqs⟩ : Normalizer cfg.hotRing) e .coldWriter
    have hlost : metrics.consumerDrops "cold_writer"+lost s.cold =
        (if !s.cold.closed && !s.cold.hasRoom then s.shed ++ [m.ticket] else s.shed).length := by
      rw [show metrics.consumerDrops = s.normalizer.metrics.consumerDrops from hnorm,h]
      cases hroom : s.cold.hasRoom <;> simp [lost,hroom,hopen]
    refine (hfan.trans ?_).trans hlost
    exact (Nat.add_zero _).trans (drops_offer s.cold)

theorem Inv.normalizeNext (h : s.Inv) (hphase : s.phase ≠ .returned) :
    (s.normalizeNext ulid eventId traceId ingestMs pushMs).Inv := by
  obtain ⟨hsame,hhandlers,hwriter⟩ :=
    normalizeNext_frame eventId traceId ingestMs pushMs ulid s
  refine ⟨h.tickets.normalizeNext h.coldOpen eventId traceId ingestMs pushMs,
    normalizeNext_cold _ _ _ _ h.coldOpen,normalizeNext_coldTx _ _ _ _ h.coldTx,
    normalizeNext_drops _ _ _ _ h.coldOpen h.coldTx h.drops,hwriter ▸ h.writer,?_,?_⟩
  · rw [hsame,hhandlers]
    exact h.idle
  · rw [hsame]
    exact fun hp => absurd hp hphase

end NormalizeNext

theorem Inv.writerReceive (h : s.Inv) (commit : Except ColdError Unit) :
    (s.writerReceive commit).Inv := by
  have htickets := h.tickets.writerReceive commit
  unfold Server.writerReceive at htickets ⊢
  split
  · exact h
  next m rest hqueue =>
    rw [hqueue] at htickets
    exact ⟨htickets,(Channel.closed_recv s.cold).trans h.coldOpen,h.coldTx,h.drops,
      h.writer.receive cfg.batchSize m commit,h.idle,h.drained⟩

theorem Inv.flushRest (h : s.Inv) (commit : Except ColdError Unit) :
    Inv { s with writer := s.writer.flushRest commit } :=
  ⟨h.tickets.flushRest commit,h.coldOpen,h.coldTx,h.drops,h.writer.flushRest commit,h.idle,
    h.drained⟩

theorem Inv.drain (h : s.Inv) (takes : Consumer → ℕ) :
    Inv { s with normalizer := s.normalizer.drain takes } :=
  ⟨⟨h.tickets.nodup,h.tickets.fresh,h.tickets.sent,h.tickets.acked⟩,h.coldOpen,
    by simp [Normalizer.drain,h.coldTx],h.drops,h.writer,h.idle,h.drained⟩

/-- The phase moves on. -/
theorem Inv.enter (h : s.Inv) {phase : Phase}
    (hidle : phase = .joining ∨ phase = .returned → s.handlers = [])
    (hdrained : phase = .returned → s.bus.queue = [] ∧ cfg.mqtt = false) :
    Inv { s with phase } :=
  ⟨⟨h.tickets.nodup,h.tickets.fresh,h.tickets.sent,h.tickets.acked⟩,h.coldOpen,h.coldTx,h.drops,
    h.writer,hidle,hdrained⟩

theorem step_of_dropped (h : s.phase = .dropped) (a : Action) : s.step ulid a = s := if_pos h

theorem Inv.step (h : s.Inv) (hphase : s.phase ≠ .dropped) (a : Action)
    (hlast : (s.step ulid a).phase ≠ .dropped) : (s.step ulid a).Inv := by
  unfold Server.step at hlast ⊢
  rw [if_neg hphase] at hlast ⊢
  cases a with
  | accept tokenName events =>
    simp only
    split
    next hopen => exact h.accept hopen tokenName events
    next => exact h
  | enqueue i => exact h.enqueue i
  | publish envelope =>
    simp only
    split
    next hmqtt => exact h.publish hmqtt envelope
    next => exact h
  | normalize eventId traceId ingestMs pushMs =>
    simp only
    split
    next => exact h
    next hreturned => exact h.normalizeNext eventId traceId ingestMs pushMs hreturned
  | consume takes => exact h.drain takes
  | receive commit => exact h.writerReceive commit
  | tick commit => exact h.flushRest commit
  | inputClosed commit =>
    simp only
    split
    · exact h.flushRest commit
    · exact h
  | signal =>
    simp only
    split
    · exact h.enter (by simp) (by simp)
    · exact h
  | serveReturns =>
    simp only
    split
    next hdone => exact h.enter (fun _ => by simpa using hdone.2) (by simp)
    next => exact h
  | normalizerExits =>
    simp only
    split
    next hdone =>
      exact h.enter (fun _ => h.idle (Or.inl hdone.1)) fun _ => ⟨by simpa using hdone.2.2,hdone.2.1⟩
    next => exact h
  | dropRuntime =>
    simp only at hlast ⊢
    split at hlast
    next => exact absurd rfl hlast
    next hnot => rwa [if_neg hnot]

/-- Only dropping the runtime after the return of `run` ends in the last phase. -/
theorem step_dropped (hphase : s.phase ≠ .dropped) {a : Action}
    (hlast : (s.step ulid a).phase = .dropped) : a = .dropRuntime ∧ s.phase = .returned := by
  unfold step at hlast
  rw [if_neg hphase] at hlast
  cases a with
  | accept tokenName events =>
    simp only [accept] at hlast
    split at hlast
    · split at hlast <;> exact absurd hlast hphase
    · exact absurd hlast hphase
  | enqueue i => exact absurd ((enqueue_frame s i).1.symm.trans hlast) hphase
  | publish envelope =>
    simp only at hlast
    split at hlast <;> exact absurd hlast hphase
  | normalize eventId traceId ingestMs pushMs =>
    simp only at hlast
    split at hlast
    · exact absurd hlast hphase
    · have hframe := normalizeNext_frame eventId traceId ingestMs pushMs ulid s
      exact absurd (hframe.1.symm.trans hlast) hphase
  | consume takes => exact absurd hlast hphase
  | receive commit =>
    simp only [writerReceive] at hlast
    split at hlast <;> exact absurd hlast hphase
  | tick commit => exact absurd hlast hphase
  | inputClosed commit =>
    simp only at hlast
    split at hlast <;> exact absurd hlast hphase
  | signal | serveReturns | normalizerExits =>
    simp only at hlast
    split at hlast
    · cases hlast
    · exact absurd hlast hphase
  | dropRuntime =>
    simp only at hlast
    split at hlast
    next hreturned => exact ⟨rfl,hreturned⟩
    next => exact absurd hlast hphase

/-- Every acknowledged event was committed, with a row under its id, or a drop counter counts
it: the cold writer's for a failed batch, the consumer drops for a full channel. -/
structure Accounted (s : Server cfg) : Prop where
  each : ∀ t ∈ s.acked,
    (∃ m ∈ s.writer.committed, m.ticket = t ∧
      ∃ r ∈ s.writer.store.events.rows, r.eventId = m.val.eventId) ∨
    (∃ m ∈ s.writer.failed, m.ticket = t) ∨ t ∈ s.shed
  failed : s.writer.metrics.eventsDropped = s.writer.failed.length
  shed : s.normalizer.metrics.consumerDrops "cold_writer" = s.shed.length

/-- No acknowledged event is still in the cold writer's channel or buffer. -/
def Settled (s : Server cfg) : Prop := ∀ t ∈ s.acked,
  (∀ m ∈ s.cold.queue, m.ticket ≠ t) ∧ ∀ m ∈ s.writer.buf, m.ticket ≠ t

/-- A ticket taken by the bus, once the bus is empty, is in one of these places and in one only. -/
theorem Inv.place (h : s.Inv) (hphase : s.phase = .returned) {t : ℕ} (ht : t ∈ s.passed) :
    ((∃ m ∈ s.cold.queue, m.ticket = t) ∨ ∃ m ∈ s.writer.buf, m.ticket = t) ↔
      ¬ ((∃ m ∈ s.writer.committed, m.ticket = t) ∨ (∃ m ∈ s.writer.failed, m.ticket = t) ∨
        t ∈ s.shed) := by
  have hnodup := (List.nodup_append.mp h.tickets.nodup).2.1
  have hone := List.count_eq_one_of_mem hnodup ht
  simp only [passed,(h.drained hphase).1,ColdWriter.held,List.map_nil,List.nil_append,
    List.map_append,List.count_append] at hone
  simp only [← List.mem_map,← List.count_pos_iff (a := t)]
  omega

theorem dropRuntime_accounted_iff (h : s.Inv) (hphase : s.phase = .returned) :
    s.dropRuntime.Accounted ↔ s.Settled := by
  constructor
  · intro hacc t ht
    have hplace := h.place hphase (h.tickets.acked t ht)
    have hcounted : (∃ m ∈ s.writer.committed, m.ticket = t) ∨
        (∃ m ∈ s.writer.failed, m.ticket = t) ∨ t ∈ s.shed := by
      rcases hacc.each t ht with ⟨m,hm,hmt,_⟩ | hrest
      · exact Or.inl ⟨m,hm,hmt⟩
      · exact Or.inr hrest
    have hnot := mt hplace.mp (not_not.mpr hcounted)
    push Not at hnot
    exact hnot
  · intro hset
    refine ⟨fun t ht => ?_,h.writer.failed,h.drops⟩
    obtain ⟨hcold,hbuf⟩ := hset t ht
    have hnot : ¬ ((∃ m ∈ s.cold.queue, m.ticket = t) ∨ ∃ m ∈ s.writer.buf, m.ticket = t) := by
      rintro (⟨m,hm,hmt⟩ | ⟨m,hm,hmt⟩)
      · exact hcold m hm hmt
      · exact hbuf m hm hmt
    rcases not_not.mp (mt (h.place hphase (h.tickets.acked t ht)).mpr hnot) with ⟨m,hm,hmt⟩ | hrest
    · exact Or.inl ⟨m,hm,hmt,h.writer.stored m hm⟩
    · exact Or.inr hrest

/-- Acknowledged events survive the shutdown exactly in the runs where, whenever the runtime is
dropped, none of them is still with the cold writer. -/
theorem shutdown_accounted_iff (cfg : ServerConfig) (ulid : UlidText) (schemas : SchemaIndex)
    (store : ColdStore) (actions : List Action) :
    Runs.Always (step ulid) (fun s => s.phase = .dropped → s.Accounted)
        (Server.spawn cfg schemas store) actions ↔
      Runs.EachStep (step ulid)
        (fun s a => a = .dropRuntime → s.phase = .returned → s.Settled)
        (Server.spawn cfg schemas store) actions := by
  refine Runs.always_iff_eachStep (I := fun s => s.phase ≠ .dropped → s.Inv) ?_ ?_
    (fun _ => Inv.spawn schemas store) (fun h => by cases h) actions
  · intro s a hinv hlast
    have hphase : s.phase ≠ .dropped := fun h => by
      rw [step_of_dropped h] at hlast
      exact hlast h
    exact (hinv hphase).step hphase a hlast
  · intro s a hinv hacc
    by_cases hphase : s.phase = .dropped
    · rw [step_of_dropped hphase]
      refine iff_of_true hacc fun _ hreturned => ?_
      rw [hphase] at hreturned
      cases hreturned
    · by_cases hdrop : a = .dropRuntime ∧ s.phase = .returned
      · obtain ⟨rfl,hreturned⟩ := hdrop
        have hstep : s.step ulid .dropRuntime = s.dropRuntime := by
          rw [step,if_neg hphase]
          exact if_pos hreturned
        rw [hstep]
        have hiff := dropRuntime_accounted_iff (hinv hphase) hreturned
        exact ⟨fun h _ _ => hiff.mp (h rfl),fun h _ => hiff.mpr (h rfl hreturned)⟩
      · refine iff_of_true (fun hlast => absurd (step_dropped hphase hlast) hdrop) ?_
        exact fun ha hreturned => absurd ⟨ha,hreturned⟩ hdrop

/-- One event, acknowledged just before the signal, is in the cold writer's channel when the
runtime goes. -/
theorem shutdown_loses_acked :
    ¬ Runs.Always (step ⟨fun _ => "",fun _ => none⟩) (fun s => s.phase = .dropped → s.Accounted)
      (Server.spawn {} ⟨fun _ => none,fun _ => none,fun _ => none⟩ .openInMemory)
      [.accept "cams" [⟨none,"cam","frame",5,.null,none,none,none⟩],.enqueue 0,.signal,
        .serveReturns,.normalize 1 2 5 5,.normalizerExits,.dropRuntime] := by
  rintro ⟨_,_,_,_,_,_,_,h⟩
  rcases (h rfl).each 0 (by decide) with ⟨m,hm,_⟩ | ⟨m,hm,_⟩ | hm
  · exact List.not_mem_nil hm
  · exact List.not_mem_nil hm
  · exact List.not_mem_nil hm

end Server

end Percept
