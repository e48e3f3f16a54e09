import Percept.ConsumerIsolation

/-! What becomes of the events of one request, by the counters: an event is accepted when the
normalizer has taken it off the bus, and shed where the handler turns it away. -/
namespace Percept

def ShedReason.all : List ShedReason :=
  [.busFull,.rateLimit,.unauthorized,.payloadTooLarge,.unresolvedKind]

/-- `percept_shed_total`, summed over its reasons. -/
def Metrics.shedTotal (m : Metrics) : ℕ := (ShedReason.all.map fun r => m.shedByReason r.asStr).sum

/-- The counters of accepted and shed events, in all and of one token. -/
structure Tally where
  accepted : ℕ
  shed : ℕ
  tokenAccepted : ℕ
  tokenShed : ℕ

def Metrics.tally (m : Metrics) (token : String) : Tally :=
  ⟨m.acceptedTotal,m.shedTotal,m.perTokenAccepted token,m.perTokenShed token⟩

/-- `accepted` more accepted and `shed` more shed. -/
def Tally.plus (t : Tally) (accepted shed : ℕ) : Tally :=
  ⟨t.accepted+accepted,t.shed+shed,t.tokenAccepted+accepted,t.tokenShed+shed⟩

@[simp] theorem Tally.plus_zero (t : Tally) : t.plus 0 0 = t := rfl

theorem Tally.plus_plus (t : Tally) (a b c d : ℕ) : (t.plus a b).plus c d = t.plus (a+c) (b+d) := by
  simp only [plus,Nat.add_assoc]

section Counters

variable {m : Metrics} {token : String}

@[simp] theorem tally_incSourceError (sourceId reason : String) (nowMs : Int64) :
    (m.incSourceError sourceId reason nowMs).tally token = m.tally token := rfl

@[simp] theorem tally_incOversizedSoft : m.incOversizedSoft.tally token = m.tally token := rfl

@[simp] theorem tally_incSchemaInvalid : m.incSchemaInvalid.tally token = m.tally token := rfl

@[simp] theorem tally_incAccepted :
    (m.incAccepted (some token)).tally token = (m.tally token).plus 1 0 := by
  simp [Metrics.incAccepted,Metrics.tally,Tally.plus,Metrics.shedTotal]

/-- The labels of the reasons differ, so one of the summands moves. -/
theorem shedTotal_incShed (r : ShedReason) (tokenName : Option String) :
    (m.incShed r.asStr tokenName).shedTotal = m.shedTotal+1 := by
  cases r <;>
    simp [Metrics.shedTotal,ShedReason.all,ShedReason.asStr,Metrics.incShed,bump,Function.update] <;>
    omega

@[simp] theorem tally_incShed (r : ShedReason) :
    (m.incShed r.asStr (some token)).tally token = (m.tally token).plus 0 1 := by
  have hshed := shedTotal_incShed (m := m) r (some token)
  simp only [Metrics.tally,hshed]
  simp [Metrics.incShed,Tally.plus]

theorem tally_of_withoutDrops {m' : Metrics} (h : m.withoutDrops = m'.withoutDrops) :
    m.tally token = m'.tally token := by
  change m.withoutDrops.tally token = m'.withoutDrops.tally token
  rw [h]

end Counters

section Normalizer

variable {config : HotRingConfig} {ulid : UlidText} {token : String}

theorem tally_normalize (ulid : UlidText) (n : Normalizer config) (a : Arrival) :
    (n.normalize ulid a).2.metrics.tally token = n.metrics.tally token := by
  simp only [Normalizer.normalize]
  split <;> simp

/-- The normalizer accepts an envelope of the token once. -/
theorem tally_step (n : Normalizer config) {a : Arrival} (ha : a.envelope.tokenName = some token) :
    (n.step ulid a).2.metrics.tally token = (n.metrics.tally token).plus 1 0 := by
  have hcount : ∀ n' : Normalizer config, n'.metrics.tally token = n.metrics.tally token →
      ∀ e, ((n'.fanOut e).metrics.incAccepted a.envelope.tokenName).tally token =
        (n.metrics.tally token).plus 1 0 := by
    intro n' hn' e
    rw [ha,tally_incAccepted,tally_of_withoutDrops (Normalizer.withoutDrops_fanOut n' e),hn']
  exact hcount
    { (n.normalize ulid a).2 with hotRings := (n.hotRings.push (n.step ulid a).1 a.pushMs).2 }
    (tally_normalize ulid n a) (n.step ulid a).1

theorem tally_run (takes : Consumer → ℕ → ℕ) (i : ℕ) {l : List Arrival}
    (hl : ∀ a ∈ l, a.envelope.tokenName = some token) (n : Normalizer config) :
    (Normalizer.run ulid takes i l n).2.metrics.tally token = (n.metrics.tally token).plus l.length 0 := by
  induction l generalizing n i with
  | nil => rfl
  | cons a l ih =>
    have hrest := ih (i+1) (fun b hb => hl b (List.mem_cons_of_mem a hb))
      ((n.drain fun c => takes c i).step ulid a).2
    rw [tally_step _ (hl a List.mem_cons_self),Tally.plus_plus] at hrest
    rw [List.length_cons,Nat.add_comm]
    exact hrest

end Normalizer

section Handler

variable {s : HttpState} {req : HttpRequest} {scope : TokenScope} {nowMs : Int64}
  {between : Interference} {events : List IngestEvent}

/-- A batch that fails a check is shed once, however many events it has. -/
theorem tally_checkEvents (m : Metrics) :
    (checkEvents s scope nowMs events m).2.tally scope.name = (m.tally scope.name).plus 0
      (if (checkEvents s scope nowMs events m).1 = none then 0 else 1) := by
  induction events generalizing m with
  | nil => rfl
  | cons e events ih =>
    simp only [checkEvents]
    split
    · simp
    · split
      · simp
      · rw [ih]
        split <;> simp

/-- The loop enqueues `k` events and, unless the channel is closed or they were all, sheds one. -/
theorem enqueue_tally (scope : TokenScope) (nowMs : Int64) (between : Interference)
    (events : List IngestEvent) (accepted : ℕ) (m : Metrics) (tx : Channel Posted) :
    ∃ k ≤ events.length,
      ours (enqueue scope nowMs between events accepted m tx).2.2 =
        ours tx ++ (events.take k).map scope.envelope ∧
      (∀ j ≤ events.length, j ≤ k ↔ roomForBatch between accepted j tx.level = true) ∧
      ((enqueue scope nowMs between events accepted m tx).1.status ≠ 503 →
        (enqueue scope nowMs between events accepted m tx).2.1.tally scope.name =
          (m.tally scope.name).plus 0 (if k = events.length then 0 else 1)) := by
  induction events generalizing accepted m tx with
  | nil =>
    refine ⟨0,le_rfl,by simp [enqueue],fun j hj => ?_,fun _ => rfl⟩
    obtain rfl := Nat.le_zero.mp hj
    exact iff_of_true le_rfl rfl
  | cons e events ih =>
    have hlevel := level_run_foreign tx (between accepted)
    have hours := ours_run_foreign tx (between accepted)
    simp only [enqueue]
    cases hroom : (tx.run ((between accepted).map foreign)).hasRoom with
    | true =>
      obtain ⟨tx',htx,_⟩ := Channel.trySend_ok hroom ⟨true,scope.envelope e⟩
      obtain ⟨k,hk,hsent,hall,htally⟩ := ih (accepted+1) m tx'
      rw [Channel.level_of_trySend htx] at hall
      simp only [htx]
      refine ⟨k+1,Nat.succ_le_succ hk,?_,fun j hj => ?_,fun hstatus => ?_⟩
      · simp [hsent,ours_trySend htx,hours]
      · cases j with
        | zero => exact iff_of_true (Nat.zero_le _) rfl
        | succ j =>
          rw [roomForBatch_succ,← hlevel,Channel.hasRoom_level,hroom,Bool.true_and,
            ← hall j (Nat.le_of_succ_le_succ hj)]
          exact Nat.succ_le_succ_iff
      · rw [htally hstatus,List.length_cons]
        simp only [Nat.add_right_cancel_iff]
    | false =>
      rw [Channel.trySend_error hroom]
      refine ⟨0,Nat.zero_le _,?_,fun j hj => ?_,fun hstatus => ?_⟩
      · split <;> simp_all
      · cases j with
        | zero => exact iff_of_true le_rfl rfl
        | succ j =>
          rw [roomForBatch_succ,← hlevel,Channel.hasRoom_level,hroom]
          simp
      · split
        · simp_all
        next hfull => simp
        next hclosed => simp [hclosed] at hstatus

theorem tally_sourceErrors (reason : String) (events : List IngestEvent) (m : Metrics)
    (token : String) : (events.foldl (fun m e => m.incSourceError e.sourceId reason nowMs) m).tally token =
      m.tally token := by
  induction events generalizing m with
  | nil => rfl
  | cons e events ih => exact ih _

/-- Where every event of the batch is counted: it is alone, or all but the last are enqueued. -/
def Countable (s : HttpState) (req : HttpRequest) (scope : TokenScope) (between : Interference)
    (events : List IngestEvent) : Prop :=
  events.length = 1 ∨
    Admitted s req scope events ∧ roomForBatch between 0 (events.length-1) s.tx.level = true

/-- The handler enqueues `k` events and sheds `shed` times. -/
structure Handled (s s' : HttpState) (scope : TokenScope) (events : List IngestEvent) (k shed : ℕ) :
    Prop where
  le : k ≤ events.length
  enqueued : ours s'.tx = ours s.tx ++ (events.take k).map scope.envelope
  tally : s'.metrics.tally scope.name = (s.metrics.tally scope.name).plus 0 shed

/-- A batch shed as a whole. -/
theorem handled_of_shed {s' : HttpState} (htx : s'.tx = s.tx)
    (htally : s'.metrics.tally scope.name = (s.metrics.tally scope.name).plus 0 1)
    (hnot : ¬Admitted s req scope events) : ∃ k shed, Handled s s' scope events k shed ∧
      (k+shed = events.length ↔ Countable s req scope between events) := by
  refine ⟨0,1,⟨Nat.zero_le _,by simp [htx],htally⟩,?_⟩
  unfold Countable
  rw [Nat.zero_add,eq_comm]
  exact (or_iff_left fun h => hnot h.1).symm

/-- A batch that goes to the loop. -/
theorem handled_enqueue {m : Metrics} (hadm : Admitted s req scope events)
    (hm : m.tally scope.name = s.metrics.tally scope.name)
    (hopen : (enqueue scope nowMs between events 0 m s.tx).1.status ≠ 503) :
    ∃ k shed, Handled s { s with
        metrics := (enqueue scope nowMs between events 0 m s.tx).2.1
        tx := (enqueue scope nowMs between events 0 m s.tx).2.2 } scope events k shed ∧
      (k+shed = events.length ↔ Countable s req scope between events) := by
  obtain ⟨k,hk,hours,hroom,htally⟩ := enqueue_tally scope nowMs between events 0 m s.tx
  have hpos : 0 < events.length := List.length_pos_iff.mpr hadm.nonempty
  refine ⟨k,_,⟨hk,hours,(htally hopen).trans (by rw [hm])⟩,?_⟩
  unfold Countable
  rw [← hroom _ (Nat.sub_le _ _),and_iff_right hadm]
  split_ifs <;> omega

theorem ingest_handled (hsub : submitted s req scope events) (hne : events ≠ [])
    (hopen : (ingest s req nowMs between).1.status ≠ 503) :
    ∃ k shed, Handled s (ingest s req nowMs between).2 scope events k shed ∧
      (k+shed = events.length ↔ Countable s req scope between events) := by
  have hsub' := hsub
  obtain ⟨hauth,hparse⟩ := hsub'
  obtain ⟨e,rest,rfl⟩ := List.exists_cons_of_ne_nil hne
  rcases hpair : checkEvents s scope nowMs (e::rest) s.metrics with ⟨reason,m⟩
  have hm : (checkEvents s scope nowMs (e::rest) s.metrics).2.tally scope.name = _ :=
    tally_checkEvents s.metrics
  have hnone : (checkEvents s scope nowMs (e::rest) s.metrics).1 = none ↔ _ := checkEvents_none_iff
  rw [hpair] at hm hnone
  cases reason with
  | some reason =>
    have hresult : (ingest s req nowMs between).2 = { s with metrics := m } := by
      simp [ingest,hauth,hparse,hpair]
    rw [hresult]
    exact handled_of_shed rfl (by simpa using hm) fun h =>
      absurd (hnone.mpr h.checked) (Option.some_ne_none _)
  | none =>
    rw [if_pos rfl,Tally.plus_zero] at hm
    cases hrate : scope.checkRate with
    | some w =>
      have hresult : (ingest s req nowMs between).2 =
          { s with
            metrics := (e::rest).foldl (fun m e =>
              m.incSourceError e.sourceId ShedReason.rateLimit.asStr nowMs)
                (m.incShed ShedReason.rateLimit.asStr (some scope.name)) } := by
        simp [ingest,hauth,hparse,hpair,hrate]
      rw [hresult]
      refine handled_of_shed rfl ?_ fun h =>
        absurd (hrate.symm.trans h.rate) (Option.some_ne_none w)
      rw [tally_sourceErrors,tally_incShed,hm]
    | none =>
      have hresult : ingest s req nowMs between =
          ((enqueue scope nowMs between (e::rest) 0 m s.tx).1,
            { s with
              metrics := (enqueue scope nowMs between (e::rest) 0 m s.tx).2.1
              tx := (enqueue scope nowMs between (e::rest) 0 m s.tx).2.2 }) := by
        simp [ingest,hauth,hparse,hpair,hrate]
      rw [hresult] at hopen ⊢
      exact handled_enqueue ⟨hsub,hne,hnone.mp rfl,hrate⟩ hm hopen

end Handler

section Drained

variable {config : HotRingConfig}

/-- The counters once the normalizer has taken some envelopes off the bus. -/
def HttpState.drained (ulid : UlidText) (takes : Consumer → ℕ → ℕ) (n : Normalizer config)
    (s : HttpState) (l : List Arrival) : Metrics :=
  (Normalizer.run ulid takes 0 l { n with metrics := s.metrics }).2.metrics

/-- By its increase a pair of counters accounts for `n` events. -/
structure Accounted (before after : Tally) (n : ℕ) : Prop where
  total : after.accepted-before.accepted+(after.shed-before.shed) = n
  token : after.tokenAccepted-before.tokenAccepted+(after.tokenShed-before.tokenShed) = n

theorem accounted_plus_iff (t : Tally) (accepted shed n : ℕ) :
    Accounted t (t.plus accepted shed) n ↔ accepted+shed = n := by
  constructor
  · intro h
    simpa [Tally.plus] using h.total
  · rintro rfl
    exact ⟨by simp [Tally.plus],by simp [Tally.plus]⟩

/-- Every event of a request is accounted for exactly when it is the only one, or when the batch
is admitted and there is room for all but its last event. -/
theorem http_accounted_iff {s : HttpState} {req : HttpRequest} {scope : TokenScope}
    {events : List IngestEvent} (hsub : submitted s req scope events) (hne : events ≠ [])
    {nowMs : Int64} {between : Interference}
    (hopen : (ingest s req nowMs between).1.status ≠ 503) (ulid : UlidText)
    (takes : Consumer → ℕ → ℕ) (n : Normalizer config) {l : List Arrival}
    (hdrained : ours (ingest s req nowMs between).2.tx = ours s.tx ++ l.map Arrival.envelope) :
    Accounted (s.metrics.tally scope.name)
      (((ingest s req nowMs between).2.drained ulid takes n l).tally scope.name) events.length ↔
        Countable s req scope between events := by
  obtain ⟨k,shed,h,hcount⟩ := ingest_handled hsub hne hopen
  have henvelopes : (events.take k).map scope.envelope = l.map Arrival.envelope :=
    List.append_cancel_left (h.enqueued.symm.trans hdrained)
  have htoken : ∀ a ∈ l, a.envelope.tokenName = some scope.name := by
    intro a ha
    have hmem : a.envelope ∈ (events.take k).map scope.envelope :=
      henvelopes ▸ List.mem_map_of_mem ha
    obtain ⟨e,_,he⟩ := List.mem_map.mp hmem
    rw [← he]
    rfl
  have hlength : l.length = k := by
    have hlen := congrArg List.length henvelopes
    rw [List.length_map,List.length_map,List.length_take,min_eq_left h.le] at hlen
    exact hlen.symm
  rw [HttpState.drained,tally_run takes 0 htoken,hlength]
  rw [h.tally,Tally.plus_plus,accounted_plus_iff,Nat.zero_add,Nat.add_zero]
  exact hcount

/-- The normalizer at its start, without consumers. -/
def freshNormalizer : Normalizer {} :=
  spawnNormalizer {} .empty ⟨false,fun _ => none,fun _ => none⟩ fun _ => none

/-- One of two events finds a free slot, and both are accounted for. -/
theorem http_accounted_full_after_one :
    Accounted (fullAfterOne.metrics.tally "cams")
      (((ingest fullAfterOne batchOfTwo 0 fun _ => []).2.drained ⟨fun _ => "",fun _ => none⟩
        (fun _ _ => 0) freshNormalizer
        [⟨⟨⟨none,"cam","frame",5,.null,none,none,none⟩,some "cams"⟩,0,1,0,0⟩]).tally "cams") 2 := by
  have hsub : submitted fullAfterOne batchOfTwo ⟨"cams",fun _ => true,fun _ => true,none⟩
      (List.replicate 2 ⟨none,"cam","frame",5,.null,none,none,none⟩) := ⟨rfl,rfl⟩
  refine (http_accounted_iff hsub (List.cons_ne_nil _ _) (by decide) _ _ _ rfl).mpr (Or.inr ?_)
  refine ⟨⟨hsub,List.cons_ne_nil _ _,fun e he => ?_,rfl⟩,by decide⟩
  obtain ⟨_,rfl⟩ := List.mem_replicate.mp he
  exact ⟨rfl,by decide⟩

/-- The same server with a token for no kind at all. -/
def outOfScope : HttpState :=
  { fullAfterOne with
    auth := ⟨fun token => if token = "t" then
      some ⟨"cams",fun _ => true,fun _ => false,none⟩ else none⟩ }

/-- A batch of two is turned away, and the counters know of one event. -/
theorem http_accounted_fails :
    (ingest outOfScope batchOfTwo 0 fun _ => []).1 = shedResponse .unauthorized none ∧
      ours (ingest outOfScope batchOfTwo 0 fun _ => []).2.tx = [] ∧
      ¬Accounted (outOfScope.metrics.tally "cams")
        (((ingest outOfScope batchOfTwo 0 fun _ => []).2.drained ⟨fun _ => "",fun _ => none⟩
          (fun _ _ => 0) freshNormalizer []).tally "cams") 2 := by
  refine ⟨by decide,by decide,fun h => ?_⟩
  exact absurd h.total (by decide)

end Drained

end Percept
