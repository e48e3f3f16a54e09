import Percept.ColdStore
import Percept.Retention
import Percept.VectorIndex

/-! The retention sweeper. For each pair in the event log it applies `max_age`, `max_count`
and `max_bytes` to the cold store, one after the other, and then `vector_max_age` to the
vector index. A dry run counts in each place instead of deleting. -/
namespace Percept

open OrderBy

/-- `SQLITE_MAX_VARIABLE_NUMBER` of the bundled library: a statement with more bound
parameters is refused. -/
def sqliteMaxVariables : ℕ := 32766

/-- The sort key of a descending window order. -/
def EventRow.age (r : EventRow) : OrderDual (Int64 ×ₗ Ulid) := OrderDual.toDual r.stamp

namespace ColdStore

def countOlder (s : ColdStore) (p : Pair) (cutoffMs : Int64) : ℕ :=
  s.events.rows.countP fun r => ofPair p r && r.tsMsUtc < cutoffMs

def sweepMaxAge (s : ColdStore) (p : Pair) (cutoffMs : Int64) (dryRun : Bool) : ℕ × ColdStore :=
  if dryRun then (s.countOlder p cutoffMs,s)
  else (s.countOlder p cutoffMs,
    { s with events := s.events.delete fun r => ofPair p r && r.tsMsUtc < cutoffMs })

/-- `DELETE FROM events WHERE event_id IN (ids)` and the number of rows it deleted. -/
def deleteIds (s : ColdStore) (ids : List Ulid) : ℕ × ColdStore :=
  (s.events.rows.countP fun r => r.eventId ∈ ids,
    { s with events := s.events.delete fun r => r.eventId ∈ ids })

/-- `(total - keep_last).max(0)`; the difference of two `i64` wraps. -/
def dropCount (keepLast : Int64) (total : ℕ) : ℕ :=
  (max (Int64.ofNat total-keepLast) 0).toNatClampNeg

/-- `WHERE source_id = ? AND kind = ? ORDER BY ts_ms_utc ASC, event_id ASC`. -/
def oldestFirst (s : ColdStore) (p : Pair) : List EventRow :=
  orderBy EventRow.stamp (s.events.rows.filter (ofPair p))

/-- `WHERE source_id = ? AND kind = ? ORDER BY ts_ms_utc DESC, event_id DESC`. -/
def newestFirst (s : ColdStore) (p : Pair) : List EventRow :=
  orderBy EventRow.age (s.events.rows.filter (ofPair p))

def sweepMaxCount (s : ColdStore) (p : Pair) (keepLast : Int64) (dryRun : Bool) : ℕ × ColdStore :=
  let dropCount := dropCount keepLast (s.countForPair p)
  if dryRun || dropCount = 0 then (dropCount,s)
  else s.deleteIds (((s.oldestFirst p).take dropCount).map fun r => r.eventId)

/-- The loop of `sweep_max_bytes`: every row from which the running total, saturating at
`i64::MAX`, is above the budget. -/
def toDrop (maxBytes : Int64) : ℕ → List EventRow → List EventRow
  | _, [] => []
  | running, r::rows =>
    let running := min (running+r.length) (2^63-1)
    if maxBytes.toInt < running then r::toDrop maxBytes running rows
    else toDrop maxBytes running rows

/-- The ids to drop are bound one parameter each. -/
def sweepMaxBytes (s : ColdStore) (p : Pair) (maxBytes : Int64) (dryRun : Bool) :
    Except ColdError (ℕ × ColdStore) :=
  let ids := (toDrop maxBytes 0 (s.newestFirst p)).map fun r => r.eventId
  if dryRun then .ok (ids.length,s)
  else if ids.isEmpty then .ok (0,s)
  else if sqliteMaxVariables < ids.length then .error (.sqlite "too many SQL variables")
  else .ok (s.deleteIds ids)

end ColdStore

/-- `EXPENSIVE_REWRITE_THRESHOLD`. -/
def expensiveRewriteThreshold : ℕ := 1000

/-- `{dimension} on ({source_id:?}, {kind:?}) is expensive: {before} events touched per sweep`. -/
structure SweepWarning where
  dimension : String
  pair : Pair
  before : ℕ
  deriving DecidableEq

structure PerPairReport where
  pair : Pair
  effective : EffectiveRetention
  eventsDropped : ℕ
  vectorsDropped : ℕ
  deriving DecidableEq

structure SweepReport where
  perPair : List PerPairReport
  eventsDropped : ℕ
  vectorsDropped : ℕ
  warnings : List SweepWarning
  dryRun : Bool
  deriving DecidableEq

/-- The stores that a sweep works on. -/
structure Stores where
  cold : ColdStore
  vector : Option VectorIndex

/-- Warn when a rewrite bound meets a pair with many events. -/
def expensive (dimension : String) (p : Pair) (cold : ColdStore) : List SweepWarning :=
  if expensiveRewriteThreshold < cold.countForPair p then [⟨dimension,p,cold.countForPair p⟩]
  else []

section Pair

variable (p : Pair) (eff : EffectiveRetention) (nowMs : Int64) (dryRun : Bool)

def ageStep (cold : ColdStore) : ℕ × ColdStore :=
  match eff.maxAgeMs with
  | none => (0,cold)
  | some maxAgeMs => cold.sweepMaxAge p (saturatingSub nowMs maxAgeMs) dryRun

def countStep (cold : ColdStore) : ℕ × ColdStore :=
  match eff.maxCount with
  | none => (0,cold)
  | some maxCount => cold.sweepMaxCount p maxCount dryRun

def bytesStep (cold : ColdStore) : Except ColdError (ℕ × ColdStore) :=
  match eff.maxBytes with
  | none => .ok (0,cold)
  | some maxBytes => cold.sweepMaxBytes p maxBytes dryRun

def vectorStep (vector : Option VectorIndex) : ℕ × Option VectorIndex :=
  match vector,eff.vectorMaxAgeMs with
  | some idx,some vmax =>
    let (n,idx) := idx.sweepMaxAge p (saturatingSub nowMs vmax) dryRun
    (n,some idx)
  | _,_ => (0,vector)

/-- The body of the loop over pairs. An error leaves the deletions made before it. -/
def sweepPair (st : Stores) : Except ColdError (PerPairReport × List SweepWarning) × Stores :=
  let (aged,cold₁) := ageStep p eff nowMs dryRun st.cold
  let countWarning := if eff.maxCount.isSome then expensive "max_count" p cold₁ else []
  let (counted,cold₂) := countStep p eff dryRun cold₁
  let bytesWarning := if eff.maxBytes.isSome then expensive "max_bytes" p cold₂ else []
  match bytesStep p eff dryRun cold₂ with
  | .error e => (.error e,{ st with cold := cold₂ })
  | .ok (sized,cold₃) =>
    let (vectorsDropped,vector) := vectorStep p eff nowMs dryRun st.vector
    (.ok (⟨p,eff,aged+counted+sized,vectorsDropped⟩,countWarning ++ bytesWarning),
      ⟨cold₃,vector⟩)

end Pair

/-- A pair is listed when something of it was dropped. -/
def SweepReport.add (report : SweepReport) (row : PerPairReport)
    (warnings : List SweepWarning) : SweepReport where
  perPair := if 0 < row.eventsDropped ∨ 0 < row.vectorsDropped then report.perPair ++ [row]
    else report.perPair
  eventsDropped := report.eventsDropped+row.eventsDropped
  vectorsDropped := report.vectorsDropped+row.vectorsDropped
  warnings := report.warnings ++ warnings
  dryRun := report.dryRun

def sweepPairs (policies : List RetentionPolicy) (nowMs : Int64) (dryRun : Bool) :
    List Pair → SweepReport → Stores → Except ColdError SweepReport × Stores
  | [], report, st => (.ok report,st)
  | p::pairs, report, st =>
    let eff := resolveEffective policies p.1 p.2
    if eff.isEmpty then sweepPairs policies nowMs dryRun pairs report st
    else match sweepPair p eff nowMs dryRun st with
      | (.error e,st) => (.error e,st)
      | (.ok (row,warnings),st) =>
        sweepPairs policies nowMs dryRun pairs (report.add row warnings) st

def sweep (policies : List RetentionPolicy) (nowMs : Int64) (dryRun : Bool) (st : Stores) :
    Except ColdError SweepReport × Stores :=
  sweepPairs policies nowMs dryRun st.cold.distinctSourceKindPairs ⟨[],0,0,[],dryRun⟩ st

/-- What the cold writer, the embedder and the sweeper do to the stores. -/
inductive StoreOp
  | append (events : List Event)
  | appendVectors (records : List VectorRecord)
  | sweep (policies : List RetentionPolicy) (nowMs : Int64) (dryRun : Bool)

namespace Stores

def apply (st : Stores) : StoreOp → Stores
  | .append events => { st with cold := st.cold.append events }
  | .appendVectors records => { st with vector := st.vector.map fun idx => idx.append records }
  | .sweep policies nowMs dryRun => (sweep policies nowMs dryRun st).2

def run (st : Stores) (ops : List StoreOp) : Stores := ops.foldl apply st

/-- Fresh databases. -/
def openInMemory : Stores := ⟨.openInMemory,some .openInMemory⟩

@[simp] theorem run_nil (st : Stores) : st.run [] = st := rfl

@[simp] theorem run_cons (st : Stores) (op : StoreOp) (ops : List StoreOp) :
    st.run (op::ops) = (st.apply op).run ops := rfl

end Stores

end Percept
