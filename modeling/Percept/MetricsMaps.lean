import Percept.Lib.DoubleChecked
import Percept.Metrics

/-! The counters in memory, where all tasks share them. A counter with a label is made at its first use:
`inc_in_map`, `inc_source_error` and `inc_mcp_call` look it up under the read lock of its map and make it
under the write lock. -/
namespace Percept

open LockedData

inductive PlainCounter
  | acceptedTotal | oversizedSoftTotal | schemaInvalidTotal
  deriving DecidableEq

/-- The maps of which each entry is one counter. -/
inductive CounterMap
  | shedByReason | perTokenAccepted | perTokenShed | consumerDrops
  deriving DecidableEq

inductive MetricsLock
  | map (m : CounterMap) | perSourceErrors | mcpCalls
  deriving DecidableEq

abbrev Counters := AList fun _ : String => UInt64

structure SharedSourceErrors where
  byReason : Counters
  lastErrorTsMsUtc : Int64

structure McpMethodStats where
  count : UInt64
  totalLatencyMs : UInt64

structure SharedMetrics where
  acceptedTotal : UInt64
  oversizedSoftTotal : UInt64
  schemaInvalidTotal : UInt64
  shedByReason : Counters
  perTokenAccepted : Counters
  perTokenShed : Counters
  perSourceErrors : AList fun _ : String => SharedSourceErrors
  mcpCalls : AList fun _ : String => McpMethodStats
  consumerDrops : Counters

/-- `entry(key).or_insert(value)`. -/
def orInsert {β : Type} (t : AList fun _ : String => β) (key : String) (value : β) :
    AList fun _ : String => β :=
  if (t.lookup key).isSome then t else t.insert key value

theorem lookup_orInsert {β : Type} (t : AList fun _ : String => β) (key other : String) (value : β) :
    (orInsert t key value).lookup other =
      if other = key then some ((t.lookup key).getD value) else t.lookup other := by
  unfold orInsert
  by_cases hkey : other = key
  · subst hkey
    rw [if_pos rfl]
    cases h : t.lookup other with
    | none => exact t.lookup_insert
    | some v => exact h
  · rw [if_neg hkey]
    split
    · rfl
    · exact AList.lookup_insert_ne hkey

theorem lookup_insert_eq {β : Type} (t : AList fun _ : String => β) (key other : String) (value : β) :
    (t.insert key value).lookup other = if other = key then some value else t.lookup other := by
  by_cases hkey : other = key
  · subst hkey
    rw [if_pos rfl,AList.lookup_insert]
  · rw [if_neg hkey,AList.lookup_insert_ne hkey]

namespace SharedMetrics

def new : SharedMetrics := ⟨0,0,0,∅,∅,∅,∅,∅,∅⟩

def map (x : SharedMetrics) : CounterMap → Counters
  | .shedByReason => x.shedByReason
  | .perTokenAccepted => x.perTokenAccepted
  | .perTokenShed => x.perTokenShed
  | .consumerDrops => x.consumerDrops

def setMap (x : SharedMetrics) (m : CounterMap) (t : Counters) : SharedMetrics :=
  match m with
  | .shedByReason => { x with shedByReason := t }
  | .perTokenAccepted => { x with perTokenAccepted := t }
  | .perTokenShed => { x with perTokenShed := t }
  | .consumerDrops => { x with consumerDrops := t }

def plain (x : SharedMetrics) : PlainCounter → UInt64
  | .acceptedTotal => x.acceptedTotal
  | .oversizedSoftTotal => x.oversizedSoftTotal
  | .schemaInvalidTotal => x.schemaInvalidTotal

/-- `fetch_add(1)` outside of the maps. -/
def addPlain (x : SharedMetrics) : PlainCounter → SharedMetrics
  | .acceptedTotal => { x with acceptedTotal := x.acceptedTotal+1 }
  | .oversizedSoftTotal => { x with oversizedSoftTotal := x.oversizedSoftTotal+1 }
  | .schemaInvalidTotal => { x with schemaInvalidTotal := x.schemaInvalidTotal+1 }

end SharedMetrics

/-- The critical sections; a view only reads. -/
inductive MetricsSection
  | inMap (m : CounterMap) (key : String)
  | sourceError (sourceId reason : String) (nowMs : Int64)
  | mcpCall (method : String) (latencyMs : UInt64)
  | view (lock : MetricsLock)

/-- The atomic operations on an entry. -/
inductive MetricsEffect
  | addIn (m : CounterMap) (key : String)
  | addReason (sourceId reason : String)
  | storeLast (sourceId : String) (nowMs : Int64)
  | addCall (method : String)
  | addLatency (method : String) (latencyMs : UInt64)

namespace MetricsSection

def lock : MetricsSection → MetricsLock
  | .inMap m _ => .map m
  | .sourceError .. => .perSourceErrors
  | .mcpCall .. => .mcpCalls
  | .view lock => lock

/-- What `get` finds. -/
def present (x : SharedMetrics) : MetricsSection → Bool
  | .inMap m key => ((x.map m).lookup key).isSome
  | .sourceError sourceId reason _ =>
    ((x.perSourceErrors.lookup sourceId).bind fun s => s.byReason.lookup reason).isSome
  | .mcpCall method _ => (x.mcpCalls.lookup method).isSome
  | .view _ => true

/-- `entry(..).or_default()`, one or two levels deep. -/
def insert (x : SharedMetrics) : MetricsSection → SharedMetrics
  | .inMap m key => x.setMap m (orInsert (x.map m) key 0)
  | .sourceError sourceId reason _ =>
    let entry := (x.perSourceErrors.lookup sourceId).getD ⟨∅,0⟩
    { x with
      perSourceErrors := x.perSourceErrors.insert sourceId
        { entry with byReason := orInsert entry.byReason reason 0 } }
  | .mcpCall method _ => { x with mcpCalls := orInsert x.mcpCalls method ⟨0,0⟩ }
  | .view _ => x

def effects : MetricsSection → List MetricsEffect
  | .inMap m key => [.addIn m key]
  | .sourceError sourceId reason nowMs => [.addReason sourceId reason,.storeLast sourceId nowMs]
  | .mcpCall method latencyMs => [.addCall method,.addLatency method latencyMs]
  | .view _ => []

end MetricsSection

/-- `fetch_add` or `store` through the reference that `get` or `entry` gave; without an entry there is no
such reference. -/
def MetricsEffect.apply (x : SharedMetrics) : MetricsEffect → Option SharedMetrics
  | .addIn m key => ((x.map m).lookup key).map fun n => x.setMap m ((x.map m).insert key (n+1))
  | .addReason sourceId reason => (x.perSourceErrors.lookup sourceId).bind fun s =>
    (s.byReason.lookup reason).map fun n => { x with
      perSourceErrors := x.perSourceErrors.insert sourceId { s with byReason := s.byReason.insert reason (n+1) } }
  | .storeLast sourceId nowMs => (x.perSourceErrors.lookup sourceId).map fun s =>
    { x with perSourceErrors := x.perSourceErrors.insert sourceId { s with lastErrorTsMsUtc := nowMs } }
  | .addCall method => (x.mcpCalls.lookup method).map fun s =>
    { x with mcpCalls := x.mcpCalls.insert method { s with count := s.count+1 } }
  | .addLatency method latencyMs => (x.mcpCalls.lookup method).map fun s =>
    { x with mcpCalls := x.mcpCalls.insert method { s with totalLatencyMs := s.totalLatencyMs+latencyMs } }

/-- One counter. -/
inductive Cell
  | plain (c : PlainCounter)
  | inMap (m : CounterMap) (key : String)
  | reason (sourceId reason : String)
  | calls (method : String)
  | latency (method : String)
  deriving DecidableEq

namespace SharedMetrics

/-- A counter without an entry has no value. -/
def cell (x : SharedMetrics) : Cell → Option UInt64
  | .plain c => some (x.plain c)
  | .inMap m key => (x.map m).lookup key
  | .reason sourceId reason => (x.perSourceErrors.lookup sourceId).bind fun s => s.byReason.lookup reason
  | .calls method => (x.mcpCalls.lookup method).map McpMethodStats.count
  | .latency method => (x.mcpCalls.lookup method).map McpMethodStats.totalLatencyMs

variable (x : SharedMetrics)

@[simp] theorem map_setMap (m : CounterMap) (t : Counters) (other : CounterMap) :
    (x.setMap m t).map other = if other = m then t else x.map other := by
  cases m <;> cases other <;> rfl

@[simp] theorem perSourceErrors_setMap (m : CounterMap) (t : Counters) :
    (x.setMap m t).perSourceErrors = x.perSourceErrors := by cases m <;> rfl

@[simp] theorem mcpCalls_setMap (m : CounterMap) (t : Counters) :
    (x.setMap m t).mcpCalls = x.mcpCalls := by cases m <;> rfl

@[simp] theorem plain_setMap (m : CounterMap) (t : Counters) (c : PlainCounter) :
    (x.setMap m t).plain c = x.plain c := by cases m <;> rfl

end SharedMetrics

/-- The counter that an effect adds to, and how much. -/
def MetricsEffect.target : MetricsEffect → Option (Cell × UInt64)
  | .addIn m key => some (.inMap m key,1)
  | .addReason sourceId reason => some (.reason sourceId reason,1)
  | .storeLast _ _ => none
  | .addCall method => some (.calls method,1)
  | .addLatency method latencyMs => some (.latency method,latencyMs)

def MetricsEffect.adds (e : MetricsEffect) (c : Cell) : UInt64 :=
  (e.target.map fun t => if c = t.1 then t.2 else 0).getD 0

/-- The counters that a section makes when they are missing. -/
def MetricsSection.cells : MetricsSection → List Cell
  | .inMap m key => [.inMap m key]
  | .sourceError sourceId reason _ => [.reason sourceId reason]
  | .mcpCall method _ => [.calls method,.latency method]
  | .view _ => []

section Cells

variable {x y : SharedMetrics} {e : MetricsEffect} {k : MetricsSection} {c : Cell}

theorem map_add_zero (n : Option UInt64) : n.map (· + 0) = n := by
  cases n with
  | none => rfl
  | some n => exact congrArg some (UInt64.add_zero n)

/-- A counter at which something was put. -/
theorem map_add_eq {n : Option UInt64} {p : Prop} [Decidable p] {v w : UInt64} (h : p → n = some v) :
    (if p then some (v+w) else n) = n.map (· + if p then w else 0) := by
  by_cases hp : p
  · rw [if_pos hp,if_pos hp,h hp]
    rfl
  · rw [if_neg hp,if_neg hp,map_add_zero]

/-- A counter that is not the target. -/
theorem map_adds_of_ne (n : Option UInt64) (h : ∀ t, e.target = some t → c ≠ t.1) :
    n.map (· + e.adds c) = n := by
  have hadds : e.adds c = 0 := by
    unfold MetricsEffect.adds
    cases ht : e.target with
    | none => rfl
    | some t => exact if_neg (h t ht)
  rw [hadds,map_add_zero]

theorem cell_apply (h : e.apply x = some y) (c : Cell) : y.cell c = (x.cell c).map (· + e.adds c) := by
  cases e with
  | addIn m key =>
    obtain ⟨n,hn,rfl⟩ := Option.map_eq_some_iff.mp h
    cases c with
    | inMap m' key' =>
      have hcell : ((x.setMap m ((x.map m).insert key (n+1))).cell (.inMap m' key')) =
          if m' = m ∧ key' = key then some (n+1) else (x.map m').lookup key' := by
        simp only [SharedMetrics.cell,SharedMetrics.map_setMap]
        by_cases hm : m' = m
        · subst hm
          simp [lookup_insert_eq]
        · simp [hm]
      rw [hcell,map_add_eq]
      · simp only [MetricsEffect.adds,MetricsEffect.target,SharedMetrics.cell,Option.map_some,Option.getD_some,
          Cell.inMap.injEq]
      · rintro ⟨rfl,rfl⟩
        exact hn
    | plain | reason | calls | latency =>
      rw [map_adds_of_ne _ fun t ht => by cases ht; exact Cell.noConfusion]
      simp only [SharedMetrics.cell,SharedMetrics.plain_setMap,SharedMetrics.perSourceErrors_setMap,
        SharedMetrics.mcpCalls_setMap]
  | addReason sourceId reason =>
    obtain ⟨s,hs,hmap⟩ := Option.bind_eq_some_iff.mp h
    obtain ⟨n,hn,rfl⟩ := Option.map_eq_some_iff.mp hmap
    cases c with
    | reason sourceId' reason' =>
      simp only [SharedMetrics.cell,lookup_insert_eq,MetricsEffect.adds,MetricsEffect.target,Option.map_some,
        Option.getD_some,Cell.reason.injEq]
      by_cases hsource : sourceId' = sourceId
      · subst hsource
        simp only [if_true,Option.bind_some,hs,true_and,lookup_insert_eq]
        exact map_add_eq fun hreason => hreason ▸ hn
      · simp only [hsource,false_and,if_false,map_add_zero]
    | plain | inMap | calls | latency =>
      rw [map_adds_of_ne _ fun t ht => by cases ht; exact Cell.noConfusion]
      rfl
  | storeLast sourceId nowMs =>
    obtain ⟨s,hs,rfl⟩ := Option.map_eq_some_iff.mp h
    rw [map_adds_of_ne _ fun t ht => by cases ht]
    cases c with
    | reason sourceId' reason' =>
      simp only [SharedMetrics.cell,lookup_insert_eq]
      by_cases hsource : sourceId' = sourceId
      · subst hsource
        rw [if_pos rfl,hs]
        rfl
      · rw [if_neg hsource]
    | plain | inMap | calls | latency => rfl
  | addCall method | addLatency method latencyMs =>
    obtain ⟨s,hs,rfl⟩ := Option.map_eq_some_iff.mp h
    cases c with
    | calls method' | latency method' =>
      simp only [SharedMetrics.cell,lookup_insert_eq,MetricsEffect.adds,MetricsEffect.target,Option.map_some,
        Option.getD_some,Cell.calls.injEq,Cell.latency.injEq,reduceCtorEq,if_false,map_add_zero]
      by_cases hmethod : method' = method
      · subst hmethod
        simp [hs]
      · simp only [hmethod,if_false,map_add_zero]
    | plain | inMap | reason =>
      rw [map_adds_of_ne _ fun t ht => by cases ht; exact Cell.noConfusion]
      rfl

/-- An effect has its counter. -/
theorem target_isSome (h : e.apply x = some y) {n : UInt64} (ht : e.target = some (c,n)) :
    (x.cell c).isSome = true := by
  cases e with
  | addIn m key =>
    cases ht
    obtain ⟨n,hn,rfl⟩ := Option.map_eq_some_iff.mp h
    exact Option.isSome_iff_exists.mpr ⟨n,hn⟩
  | addReason sourceId reason =>
    cases ht
    obtain ⟨s,hs,hmap⟩ := Option.bind_eq_some_iff.mp h
    obtain ⟨n,hn,rfl⟩ := Option.map_eq_some_iff.mp hmap
    simp [SharedMetrics.cell,hs,hn]
  | storeLast sourceId nowMs => cases ht
  | addCall method | addLatency method latencyMs =>
    cases ht
    obtain ⟨s,hs,rfl⟩ := Option.map_eq_some_iff.mp h
    simp [SharedMetrics.cell,hs]

theorem cell_insert (x : SharedMetrics) (k : MetricsSection) (c : Cell) :
    (k.insert x).cell c = if c ∈ k.cells then some ((x.cell c).getD 0) else x.cell c := by
  cases k with
  | inMap m key =>
    cases c with
    | inMap m' key' =>
      simp only [MetricsSection.insert,SharedMetrics.cell,SharedMetrics.map_setMap,MetricsSection.cells,
        List.mem_singleton,Cell.inMap.injEq]
      by_cases hm : m' = m
      · subst hm
        rw [if_pos rfl,lookup_orInsert]
        by_cases hkey : key' = key
        · subst hkey
          simp
        · simp [hkey]
      · simp [hm]
    | plain | reason | calls | latency => simp [MetricsSection.insert,SharedMetrics.cell,MetricsSection.cells]
  | sourceError sourceId reason nowMs =>
    cases c with
    | reason sourceId' reason' =>
      simp only [MetricsSection.insert,SharedMetrics.cell,lookup_insert_eq,MetricsSection.cells,
        List.mem_singleton,Cell.reason.injEq]
      by_cases hsource : sourceId' = sourceId
      · subst hsource
        simp only [if_true,Option.bind_some,lookup_orInsert,true_and]
        cases x.perSourceErrors.lookup sourceId' with
        | none =>
          by_cases hreason : reason' = reason <;> simp [hreason]
        | some s =>
          by_cases hreason : reason' = reason
          · subst hreason
            simp
          · simp [hreason]
      · simp [hsource]
    | plain | inMap | calls | latency => simp [MetricsSection.insert,MetricsSection.cells]; rfl
  | mcpCall method latencyMs =>
    cases c with
    | calls method' | latency method' =>
      simp only [MetricsSection.insert,SharedMetrics.cell,lookup_orInsert,MetricsSection.cells,List.mem_cons,
        List.not_mem_nil,Cell.calls.injEq,Cell.latency.injEq,reduceCtorEq,or_false,false_or]
      by_cases hmethod : method' = method
      · subst hmethod
        cases x.mcpCalls.lookup method' <;> simp
      · simp [hmethod]
    | plain | inMap | reason => simp [MetricsSection.insert,MetricsSection.cells]; rfl
  | view lock => rfl

theorem cell_addPlain (x : SharedMetrics) (a : PlainCounter) (c : Cell) :
    (x.addPlain a).cell c = (x.cell c).map (· + if c = .plain a then 1 else 0) := by
  cases c with
  | plain c => cases a <;> cases c <;> simp [SharedMetrics.cell,SharedMetrics.plain,SharedMetrics.addPlain]
  | inMap | reason | calls | latency =>
    simp only [reduceCtorEq,if_false,map_add_zero]
    cases a <;> rfl

/-- `get` finds an entry when its counters are there. -/
theorem present_iff : k.present x = true ↔ ∀ c ∈ k.cells, (x.cell c).isSome = true := by
  cases k with
  | inMap | sourceError => simp [MetricsSection.present,MetricsSection.cells,SharedMetrics.cell]
  | mcpCall => simp [MetricsSection.present,MetricsSection.cells,SharedMetrics.cell]
  | view => simp [MetricsSection.present,MetricsSection.cells]

end Cells

def metricsData : LockedData SharedMetrics MetricsLock MetricsSection MetricsEffect PlainCounter where
  lock := MetricsSection.lock
  present k x := k.present x
  insert k x := k.insert x
  effects := MetricsSection.effects
  apply e x := e.apply x
  act a x := x.addPlain a
  present_insert k x := present_iff.mpr fun c hc => by
    rw [cell_insert,if_pos hc]
    rfl
  insert_keeps k k' x h := present_iff.mpr fun c hc => by
    rw [cell_insert]
    split
    · rfl
    · exact present_iff.mp h c hc
  apply_keeps k e x y happly h := present_iff.mpr fun c hc => by
    rw [cell_apply happly,Option.isSome_map]
    exact present_iff.mp h c hc
  act_keeps k a x h := present_iff.mpr fun c hc => by
    rw [cell_addPlain,Option.isSome_map]
    exact present_iff.mp h c hc
  apply_present k x h e he := by
    cases k with
    | inMap m key =>
      obtain rfl := List.mem_singleton.mp he
      exact (Option.isSome_map ..).trans h
    | sourceError sourceId reason nowMs =>
      obtain ⟨n,hn⟩ := Option.isSome_iff_exists.mp h
      obtain ⟨s,hs,hreason⟩ := Option.bind_eq_some_iff.mp hn
      rcases List.mem_pair.mp he with rfl | rfl
      · simp [MetricsEffect.apply,hs,hreason]
      · simp [MetricsEffect.apply,hs]
    | mcpCall method latencyMs =>
      rcases List.mem_pair.mp he with rfl | rfl <;> exact (Option.isSome_map ..).trans h
    | view lock => cases he

theorem counts_cell (c : Cell) : metricsData.Counts (fun x => (x.cell c).getD 0) (fun e => e.adds c)
    fun a => if c = .plain a then 1 else 0 where
  apply e x y h := by
    have hcell := cell_apply h c
    cases hx : x.cell c with
    | some n =>
      rw [hx] at hcell
      rw [hcell]
      rfl
    | none =>
      have hne : ∀ t, e.target = some t → c ≠ t.1 := by
        rintro ⟨c',n⟩ ht rfl
        have hsome := target_isSome h ht
        rw [hx] at hsome
        cases hsome
      have hadds := map_adds_of_ne (some 0) hne
      rw [hx] at hcell
      rw [hcell]
      exact (Option.some.inj hadds).symm
  insert k x := by
    change ((k.insert x).cell c).getD 0 = _
    rw [cell_insert]
    split <;> rfl
  act a x := by
    change ((x.addPlain a).cell c).getD 0 = _
    rw [cell_addPlain]
    cases hx : x.cell c with
    | some n => rfl
    | none =>
      have hne : c ≠ .plain a := by
        rintro rfl
        cases hx
      simp [hne]

/-- The public functions of `Metrics`. The last ones only read. -/
inductive MetricsCall
  | incAccepted (tokenName : Option String)
  | incOversizedSoft
  | incSchemaInvalid
  | incShed (reason : String) (tokenName : Option String)
  | incConsumerDrop (consumer : String)
  | incSourceError (sourceId reason : String) (nowMs : Int64)
  | incMcpCall (method : String) (latencyMs : UInt64)
  | shedCount | consumerDropCount | mcpCallCount | recentErrors | render

/-- `Metrics` with what `inc_mcp_call` counts: calls and the sum of their latencies. -/
structure MetricsWithCalls extends Metrics where
  mcpCalls : String → ℕ × ℕ

namespace MetricsCall

def tasks : MetricsCall → List (Task MetricsSection PlainCounter)
  | .incAccepted tokenName =>
    .act .acceptedTotal::tokenName.toList.map fun name => .enter (.inMap .perTokenAccepted name)
  | .incOversizedSoft => [.act .oversizedSoftTotal]
  | .incSchemaInvalid => [.act .schemaInvalidTotal]
  | .incShed reason tokenName =>
    .enter (.inMap .shedByReason reason)::tokenName.toList.map fun name => .enter (.inMap .perTokenShed name)
  | .incConsumerDrop consumer => [.enter (.inMap .consumerDrops consumer)]
  | .incSourceError sourceId reason nowMs => [.enter (.sourceError sourceId reason nowMs)]
  | .incMcpCall method latencyMs => [.enter (.mcpCall method latencyMs)]
  | .shedCount => [.enter (.view (.map .shedByReason))]
  | .consumerDropCount => [.enter (.view (.map .consumerDrops))]
  | .mcpCallCount => [.enter (.view .mcpCalls)]
  | .recentErrors => [.enter (.view .perSourceErrors)]
  | .render => [.enter (.view (.map .shedByReason)),.enter (.view (.map .perTokenAccepted)),
      .enter (.view (.map .perTokenShed)),.enter (.view .mcpCalls),.enter (.view (.map .consumerDrops))]

def apply (m : MetricsWithCalls) : MetricsCall → MetricsWithCalls
  | .incAccepted tokenName => { m with toMetrics := m.toMetrics.incAccepted tokenName }
  | .incOversizedSoft => { m with toMetrics := m.toMetrics.incOversizedSoft }
  | .incSchemaInvalid => { m with toMetrics := m.toMetrics.incSchemaInvalid }
  | .incShed reason tokenName => { m with toMetrics := m.toMetrics.incShed reason tokenName }
  | .incConsumerDrop consumer => { m with toMetrics := m.toMetrics.incConsumerDrop consumer }
  | .incSourceError sourceId reason nowMs =>
    { m with toMetrics := m.toMetrics.incSourceError sourceId reason nowMs }
  | .incMcpCall method latencyMs =>
    let (count,totalLatencyMs) := m.mcpCalls method
    { m with mcpCalls := Function.update m.mcpCalls method (count+1,totalLatencyMs+latencyMs.toNat) }
  | .shedCount | .consumerDropCount | .mcpCallCount | .recentErrors | .render => m

/-- The counters that a call adds to. -/
def targets : MetricsCall → List (Cell × ℕ)
  | .incAccepted tokenName =>
    (.plain .acceptedTotal,1)::tokenName.toList.map fun name => (.inMap .perTokenAccepted name,1)
  | .incOversizedSoft => [(.plain .oversizedSoftTotal,1)]
  | .incSchemaInvalid => [(.plain .schemaInvalidTotal,1)]
  | .incShed reason tokenName =>
    (.inMap .shedByReason reason,1)::tokenName.toList.map fun name => (.inMap .perTokenShed name,1)
  | .incConsumerDrop consumer => [(.inMap .consumerDrops consumer,1)]
  | .incSourceError sourceId reason _ => [(.reason sourceId reason,1)]
  | .incMcpCall method latencyMs => [(.calls method,1),(.latency method,latencyMs.toNat)]
  | .shedCount | .consumerDropCount | .mcpCallCount | .recentErrors | .render => []

def amount (call : MetricsCall) (c : Cell) : ℕ := (call.targets.map fun t => if c = t.1 then t.2 else 0).sum

end MetricsCall

namespace MetricsWithCalls

def new : MetricsWithCalls := ⟨.new,fun _ => (0,0)⟩

def cell (m : MetricsWithCalls) : Cell → ℕ
  | .plain .acceptedTotal => m.acceptedTotal
  | .plain .oversizedSoftTotal => m.oversizedSoftTotal
  | .plain .schemaInvalidTotal => m.schemaInvalidTotal
  | .inMap .shedByReason key => m.shedByReason key
  | .inMap .perTokenAccepted key => m.perTokenAccepted key
  | .inMap .perTokenShed key => m.perTokenShed key
  | .inMap .consumerDrops key => m.consumerDrops key
  | .reason sourceId reason => ((m.perSourceErrors sourceId).map fun s => s.byReason reason).getD 0
  | .calls method => (m.mcpCalls method).1
  | .latency method => (m.mcpCalls method).2

end MetricsWithCalls

section Calls

variable (call : MetricsCall) (c : Cell)

theorem bump_apply (m : String → ℕ) (key other : String) :
    bump m key other = m other+if other = key then 1 else 0 := by
  by_cases h : other = key
  · subst h
    simp
  · simp [bump_ne m h,h]

theorem cell_incSourceError (m : Metrics) (sourceId reason sourceId' reason' : String) (nowMs : Int64) :
    (((m.incSourceError sourceId reason nowMs).perSourceErrors sourceId').map fun s => s.byReason reason').getD 0 =
      ((m.perSourceErrors sourceId').map fun s => s.byReason reason').getD 0+
        if sourceId' = sourceId ∧ reason' = reason then 1 else 0 := by
  by_cases hsource : sourceId' = sourceId
  · subst hsource
    simp only [Metrics.incSourceError,Function.update_self,Option.map_some,Option.getD_some,bump_apply,true_and]
    cases m.perSourceErrors sourceId' <;> rfl
  · simp [Metrics.incSourceError,hsource]

theorem cell_call (m : MetricsWithCalls) : (call.apply m).cell c = m.cell c+call.amount c := by
  unfold MetricsCall.amount
  cases call with
  | incAccepted tokenName =>
    cases tokenName <;> cases c with
      | plain c => cases c <;> simp [MetricsCall.apply,MetricsWithCalls.cell,MetricsCall.targets,Metrics.incAccepted]
      | inMap t key =>
        cases t <;> simp [MetricsCall.apply,MetricsWithCalls.cell,MetricsCall.targets,Metrics.incAccepted,bump_apply]
      | reason | calls | latency =>
        simp [MetricsCall.apply,MetricsWithCalls.cell,MetricsCall.targets,Metrics.incAccepted]
  | incShed reason tokenName =>
    cases tokenName <;> cases c with
      | plain c => cases c <;> simp [MetricsCall.apply,MetricsWithCalls.cell,MetricsCall.targets,Metrics.incShed]
      | inMap t key =>
        cases t <;> simp [MetricsCall.apply,MetricsWithCalls.cell,MetricsCall.targets,Metrics.incShed,bump_apply]
      | reason | calls | latency =>
        simp [MetricsCall.apply,MetricsWithCalls.cell,MetricsCall.targets,Metrics.incShed]
  | incOversizedSoft | incSchemaInvalid | incConsumerDrop =>
    cases c with
    | plain c =>
      cases c <;> simp [MetricsCall.apply,MetricsWithCalls.cell,MetricsCall.targets,Metrics.incOversizedSoft,
        Metrics.incSchemaInvalid,Metrics.incConsumerDrop]
    | inMap t key =>
      cases t <;> simp [MetricsCall.apply,MetricsWithCalls.cell,MetricsCall.targets,Metrics.incOversizedSoft,
        Metrics.incSchemaInvalid,Metrics.incConsumerDrop,bump_apply]
    | reason | calls | latency =>
      simp [MetricsCall.apply,MetricsWithCalls.cell,MetricsCall.targets,Metrics.incOversizedSoft,
        Metrics.incSchemaInvalid,Metrics.incConsumerDrop]
  | incSourceError sourceId reason nowMs =>
    cases c with
    | reason sourceId' reason' =>
      refine (cell_incSourceError m.toMetrics sourceId reason sourceId' reason' nowMs).trans ?_
      simp [MetricsWithCalls.cell,MetricsCall.targets]
    | plain c => cases c <;> rfl
    | inMap t key => cases t <;> rfl
    | calls | latency => rfl
  | incMcpCall method latencyMs =>
    cases c with
    | calls method' | latency method' =>
      by_cases hmethod : method' = method
      · subst hmethod
        simp [MetricsCall.apply,MetricsWithCalls.cell,MetricsCall.targets]
      · simp [MetricsCall.apply,MetricsWithCalls.cell,MetricsCall.targets,hmethod]
    | plain c => cases c <;> rfl
    | inMap t key => cases t <;> rfl
    | reason => rfl
  | shedCount | consumerDropCount | mcpCallCount | recentErrors | render => rfl

theorem ofNat_ite (p : Prop) [Decidable p] (n : ℕ) :
    UInt64.ofNat (if p then n else 0) = if p then UInt64.ofNat n else 0 := by
  split <;> rfl

theorem gains_call : metricsData.allGains (fun e => e.adds c) (fun a => if c = .plain a then 1 else 0) call.tasks =
    UInt64.ofNat (call.amount c) := by
  unfold MetricsCall.amount
  cases call with
  | incAccepted tokenName | incShed reason tokenName =>
    cases tokenName <;> simp [allGains,gains,metricsData,MetricsCall.tasks,MetricsCall.targets,
      MetricsSection.effects,MetricsEffect.adds,MetricsEffect.target,UInt64.ofNat_add,ofNat_ite]
  | incMcpCall method latencyMs =>
    simp [allGains,gains,metricsData,MetricsCall.tasks,MetricsCall.targets,MetricsSection.effects,
      MetricsEffect.adds,MetricsEffect.target,UInt64.ofNat_add,ofNat_ite]
  | incOversizedSoft | incSchemaInvalid | incConsumerDrop | incSourceError =>
    simp [allGains,gains,metricsData,MetricsCall.tasks,MetricsCall.targets,MetricsSection.effects,
      MetricsEffect.adds,MetricsEffect.target,ofNat_ite]
  | shedCount | consumerDropCount | mcpCallCount | recentErrors | render => rfl

theorem cell_foldl (serial : List MetricsCall) (m : MetricsWithCalls) :
    (serial.foldl (fun m call => call.apply m) m).cell c = m.cell c+(serial.map fun call => call.amount c).sum := by
  induction serial generalizing m with
  | nil => rfl
  | cons call serial ih => rw [List.foldl_cons,ih,cell_call,List.map_cons,List.sum_cons,Nat.add_assoc]

theorem gains_calls (calls : List MetricsCall) :
    metricsData.allGains (fun e => e.adds c) (fun a => if c = .plain a then 1 else 0)
      (calls.flatMap MetricsCall.tasks) = UInt64.ofNat (calls.map fun call => call.amount c).sum := by
  induction calls with
  | nil => rfl
  | cons call calls ih =>
    rw [List.flatMap_cons,allGains_append,gains_call,ih,List.map_cons,List.sum_cons,UInt64.ofNat_add]

end Calls

structure RecentErrors where
  counters : List (String × UInt64)
  lastErrorTsMsUtc : Int64

/-- `recent_errors`. -/
def SharedMetrics.recentErrors (x : SharedMetrics) (sourceId : String) : Option RecentErrors :=
  (x.perSourceErrors.lookup sourceId).bind fun s =>
    let counters := (s.byReason.entries.map fun e => (e.1,e.2)).filter fun e => decide (0 < e.2)
    if counters.isEmpty then none else some ⟨counters,s.lastErrorTsMsUtc⟩

/-- A counter is there only when a section that makes it was called. -/
theorem mended_used (c : Cell) (V : Prop) (ℓ : MetricsLock) : metricsData.Mended (fun k => c ∈ k.cells → V) ℓ
    (fun x => (x.cell c).isSome = true → V) fun _ => False where
  act a x h hc := by
    change ((x.addPlain a).cell c).isSome = true at hc
    rw [cell_addPlain,Option.isSome_map] at hc
    exact h hc
  apply k hk e he x y happly h hc := by
    rw [cell_apply happly,Option.isSome_map] at hc
    exact h.elim (fun h => h hc) False.elim
  insert k hk x h := by
    refine Or.inl fun hc => ?_
    change ((k.insert x).cell c).isSome = true at hc
    rw [cell_insert] at hc
    split at hc
    next hmem => exact hk hmem
    next => exact h hc

/-- The time of the last error of a source is one of a set. -/
def Timed (sourceId : String) (T : Int64 → Prop) (x : SharedMetrics) : Prop :=
  ∀ s, x.perSourceErrors.lookup sourceId = some s → T s.lastErrorTsMsUtc

theorem timed_insert {sourceId other : String} {T : Int64 → Prop} {x : SharedMetrics} {s : SharedSourceErrors}
    (h : Timed sourceId T x) (hs : other = sourceId → T s.lastErrorTsMsUtc) :
    Timed sourceId T { x with perSourceErrors := x.perSourceErrors.insert other s } := by
  intro s' hs'
  rw [lookup_insert_eq] at hs'
  split at hs'
  next heq =>
    obtain rfl := Option.some.inj hs'
    exact hs heq.symm
  next => exact h s' hs'

/-- A new entry has the time zero until its section has stored one. -/
theorem mended_timed (sourceId : String) (T : Int64 → Prop) : metricsData.Mended
    (fun k => ∀ reason nowMs, k = .sourceError sourceId reason nowMs → T nowMs) .perSourceErrors
    (Timed sourceId T) fun e => ∃ nowMs, e = .storeLast sourceId nowMs ∧ T nowMs where
  act a x h := by cases a <;> exact h
  apply k hk e he x y happly h := by
    change e.apply x = some y at happly
    cases e with
    | addIn m key =>
      obtain ⟨n,hn,rfl⟩ := Option.map_eq_some_iff.mp happly
      intro s hs
      rw [SharedMetrics.perSourceErrors_setMap] at hs
      rcases h with h | ⟨nowMs,hstore,-⟩
      · exact h s hs
      · cases hstore
    | addCall method | addLatency method latencyMs =>
      obtain ⟨n,hn,rfl⟩ := Option.map_eq_some_iff.mp happly
      rcases h with h | ⟨nowMs,hstore,-⟩
      · exact h
      · cases hstore
    | addReason other reason =>
      obtain ⟨s,hs,hmap⟩ := Option.bind_eq_some_iff.mp happly
      obtain ⟨n,hn,rfl⟩ := Option.map_eq_some_iff.mp hmap
      rcases h with h | ⟨nowMs,hstore,-⟩
      · exact timed_insert h fun heq => h s (heq ▸ hs)
      · cases hstore
    | storeLast other nowMs =>
      obtain ⟨s,hs,rfl⟩ := Option.map_eq_some_iff.mp happly
      have hT : other = sourceId → T nowMs := by
        rintro rfl
        cases k with
        | sourceError source reason now =>
          rcases List.mem_pair.mp he with he | he
          · cases he
          · cases he
            exact hk reason nowMs rfl
        | inMap m key => cases List.mem_singleton.mp he
        | mcpCall method latencyMs => rcases List.mem_pair.mp he with he | he <;> cases he
        | view lock => cases he
      by_cases hother : other = sourceId
      · intro s' hs'
        rw [lookup_insert_eq,if_pos hother.symm] at hs'
        obtain rfl := Option.some.inj hs'
        exact hT hother
      · rcases h with h | ⟨now,hstore,-⟩
        · exact timed_insert h fun heq => absurd heq hother
        · cases hstore
          exact absurd rfl hother
  insert k hk x h := by
    change Timed sourceId T (k.insert x) ∨ _
    cases k with
    | inMap m key =>
      refine Or.inl fun s hs => h s ?_
      rwa [MetricsSection.insert,SharedMetrics.perSourceErrors_setMap] at hs
    | mcpCall | view => exact Or.inl h
    | sourceError other reason nowMs =>
      by_cases hother : other = sourceId
      · subst hother
        exact Or.inr ⟨rfl,.storeLast other nowMs,List.mem_pair.mpr (Or.inr rfl),nowMs,rfl,hk reason nowMs rfl⟩
      · exact Or.inl (timed_insert h fun heq => absurd heq hother)

theorem call_of_enter {call : MetricsCall} {sourceId reason : String} {nowMs : Int64}
    (h : .enter (.sourceError sourceId reason nowMs) ∈ call.tasks) : call = .incSourceError sourceId reason nowMs := by
  cases call with
  | incAccepted tokenName | incShed reason tokenName => cases tokenName <;> simp [MetricsCall.tasks] at h
  | incSourceError =>
    simp only [MetricsCall.tasks,List.mem_singleton,Task.enter.injEq,MetricsSection.sourceError.injEq] at h
    obtain ⟨rfl,rfl,rfl⟩ := h
    rfl
  | incOversizedSoft | incSchemaInvalid | incConsumerDrop | incMcpCall | shedCount | consumerDropCount
  | mcpCallCount | recentErrors | render => simp [MetricsCall.tasks] at h

theorem sourceError_of_mem_cells {k : MetricsSection} {sourceId reason : String}
    (h : .reason sourceId reason ∈ k.cells) : ∃ nowMs, k = .sourceError sourceId reason nowMs := by
  cases k with
  | sourceError source r nowMs =>
    cases List.mem_singleton.mp h
    exact ⟨nowMs,rfl⟩
  | inMap m key => cases List.mem_singleton.mp h
  | mcpCall method latencyMs => rcases List.mem_pair.mp h with h | h <;> cases h
  | view lock => cases h

theorem cell_new (c : Cell) : (SharedMetrics.new.cell c).getD 0 = 0 := by
  cases c with
  | plain c => cases c <;> rfl
  | inMap m key => cases m <;> rfl
  | reason | calls | latency => rfl

theorem cell_new_nat (c : Cell) : MetricsWithCalls.new.cell c = 0 := by
  cases c with
  | plain c => cases c <;> rfl
  | inMap m key => cases m <;> rfl
  | reason | calls | latency => rfl

section Runs

variable {ι : Type} [Fintype ι]

/-- What the calls of all threads add to a counter. -/
theorem sum_gains (calls : ι → List MetricsCall) (c : Cell) {serial : List MetricsCall}
    (hperm : serial.Perm (Finset.univ.toList.flatMap calls)) :
    ∑ i, metricsData.allGains (fun e => e.adds c) (fun a => if c = .plain a then 1 else 0)
      ((calls i).flatMap MetricsCall.tasks) = UInt64.ofNat (serial.map fun call => call.amount c).sum := by
  rw [(hperm.map _).sum_eq,← gains_calls]
  have hlist : ∀ l : List ι, metricsData.allGains (fun e => e.adds c) (fun a => if c = .plain a then 1 else 0)
      ((l.flatMap calls).flatMap MetricsCall.tasks) = (l.map fun i => metricsData.allGains (fun e => e.adds c)
        (fun a => if c = .plain a then 1 else 0) ((calls i).flatMap MetricsCall.tasks)).sum := by
    intro l
    induction l with
    | nil => rfl
    | cons i l ih =>
      rw [List.flatMap_cons,List.flatMap_append,allGains_append,ih,List.map_cons,List.sum_cons]
  rw [hlist,Finset.sum_map_toList]

variable [DecidableEq ι]

/-- Tasks that call the functions of `Metrics`. -/
def metricsRun (calls : ι → List MetricsCall) (l : List ι) :
    System ι SharedMetrics MetricsSection MetricsEffect PlainCounter :=
  metricsData.run (LockedData.spawn .new fun i => (calls i).flatMap MetricsCall.tasks) l

/-- A counter of an error was made by a call that gave its reason. -/
theorem exists_call_of_cell {calls : ι → List MetricsCall} {l : List ι} {sourceId reason : String}
    (h : ((metricsRun calls l).shared.cell (.reason sourceId reason)).isSome = true) :
    ∃ i nowMs, .incSourceError sourceId reason nowMs ∈ calls i := by
  have hmended := mended_used (.reason sourceId reason) (∃ i nowMs, .incSourceError sourceId reason nowMs ∈ calls i)
    .mcpCalls
  -- an insertion for a reason is in the section of a call that gave it
  have huses : ∀ i, Uses (fun k => .reason sourceId reason ∈ k.cells →
      ∃ i nowMs, .incSourceError sourceId reason nowMs ∈ calls i)
      (⟨.start,(calls i).flatMap MetricsCall.tasks⟩ : Thread MetricsSection MetricsEffect PlainCounter) := by
    intro i k hk hc
    obtain ⟨nowMs,rfl⟩ := sourceError_of_mem_cells hc
    obtain ⟨call,hcall,henter⟩ := List.mem_flatMap.mp hk
    exact ⟨i,nowMs,call_of_enter henter ▸ hcall⟩
  rcases good_or_mending hmended (x := SharedMetrics.new) (fun hc => by cases hc) huses l with
    hgood | ⟨i,k,rest,todo,-,-,e,-,hfalse⟩
  · exact hgood h
  · exact hfalse.elim

/-- The counters under concurrency. However tasks on any number of threads interleave, no task waits for
ever: each run can go on to its end. When all calls have returned, every counter has the value, modulo 2^64,
that the calls give one after the other in any order. And whoever may read the errors of a source meanwhile
finds counters above zero of reasons that were given, and the time that one of the calls for the source gave. -/
theorem metrics_agree (calls : ι → List MetricsCall) (l : List ι) :
    let s := metricsRun calls l
    (∃ l', Finished (metricsData.run s l')) ∧
    (Finished s → ∀ serial : List MetricsCall, serial.Perm (Finset.univ.toList.flatMap calls) → ∀ c,
      (s.shared.cell c).getD 0 = UInt64.ofNat ((serial.foldl MetricsCall.apply .new).cell c)) ∧
    ((∀ i, metricsData.held (s.threads i) ≠ some (.perSourceErrors,true)) →
      ∀ sourceId d, s.shared.recentErrors sourceId = some d →
        (∃ i reason, .incSourceError sourceId reason d.lastErrorTsMsUtc ∈ calls i) ∧ d.counters ≠ [] ∧
        ∀ x ∈ d.counters, 0 < x.2 ∧ s.shared.cell (.reason sourceId x.1) = some x.2 ∧
          ∃ i nowMs, .incSourceError sourceId x.1 nowMs ∈ calls i) := by
  intro s
  refine ⟨((Sound.spawn _ _).run l).can_finish,fun hfinished serial hperm c => ?_,
    fun hfree sourceId d hd => ?_⟩
  · have htotal := total_finished (counts_cell c) hfinished
    rw [cell_new,zero_add,sum_gains calls c hperm] at htotal
    rw [cell_foldl,cell_new_nat,Nat.zero_add]
    exact htotal
  · obtain ⟨e,he,hdigest⟩ := Option.bind_eq_some_iff.mp hd
    dsimp only at hdigest
    split at hdigest
    · cases hdigest
    next hne =>
      obtain rfl := Option.some.inj hdigest
      have htimed := good_of_unwritten (mended_timed sourceId fun nowMs =>
        ∃ i reason, .incSourceError sourceId reason nowMs ∈ calls i) (x := SharedMetrics.new)
        (fun s hs => by cases hs) (fun i k hk reason nowMs heq => by
          obtain ⟨call,hcall,henter⟩ := List.mem_flatMap.mp hk
          exact ⟨i,reason,call_of_enter (heq ▸ henter) ▸ hcall⟩) l hfree
      refine ⟨htimed e he,fun hnil => hne (List.isEmpty_iff.mpr hnil),fun x hx => ?_⟩
      obtain ⟨hentry,hpositive⟩ := List.mem_filter.mp hx
      obtain ⟨⟨reason,n⟩,hmem,rfl⟩ := List.mem_map.mp hentry
      have hcell : s.shared.cell (.reason sourceId reason) = some n := by
        simp only [SharedMetrics.cell,he,Option.bind_some]
        exact AList.mem_lookup_iff.mpr hmem
      have hsome : (s.shared.cell (.reason sourceId reason)).isSome = true := by
        rw [hcell]
        rfl
      exact ⟨of_decide_eq_true hpositive,hcell,exists_call_of_cell hsome⟩

end Runs

/-- Both tasks find the label missing before either of them makes its counter. -/
example : (metricsRun (fun _ : Fin 2 => [.incConsumerDrop "cold_writer"])
    [0,0,1,1,0,0,1,0,0,1,1,1,1]).shared.cell (.inMap .consumerDrops "cold_writer") = some 2 := by decide

end Percept
