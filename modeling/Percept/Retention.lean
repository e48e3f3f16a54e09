import Percept.Core

/-! Retention policies and their resolution for one `(source_id, kind)` pair: source-level
entries before kind-level ones before the global default, the first that sets a dimension
deciding it. -/
namespace Percept

structure Duration where
  secs : UInt64
  subsecNanos : UInt32
  deriving DecidableEq

def Duration.fromSecs (n : UInt64) : Duration := ⟨n,0⟩

def Duration.asMillis (d : Duration) : ℕ := d.secs.toNat*1000+d.subsecNanos.toNat/1000000

/-- `i64::try_from(d.as_millis()).unwrap_or(i64::MAX)`. -/
def durationToMs (d : Duration) : Int64 :=
  if d.asMillis < 2^63 then Int64.ofNat d.asMillis else Int64.maxValue

/-- The name of a kind without its version pin. -/
def bareKind (kind : String) : String := ((splitOnce '@' kind).map Prod.fst).getD kind

structure RetentionPolicy where
  matchSourceId : Option String := none
  matchKind : Option String := none
  maxAge : Option Duration := none
  maxCount : Option Int64 := none
  maxBytes : Option Int64 := none
  vectorMaxAge : Option Duration := none
  deriving DecidableEq

namespace RetentionPolicy

def applies (p : RetentionPolicy) (sourceId kind : String) : Bool :=
  let sourceOk := p.matchSourceId.all fun s => s = sourceId
  let kindOk := p.matchKind.all fun k => k = bareKind kind || k = kind
  sourceOk && kindOk

/-- Lower is more specific. -/
def tier (p : RetentionPolicy) : ℕ :=
  match p.matchSourceId.isSome,p.matchKind.isSome with
  | true, _ => 0
  | false, true => 1
  | false, false => 2

end RetentionPolicy

structure EffectiveRetention where
  maxAgeMs : Option Int64 := none
  maxCount : Option Int64 := none
  maxBytes : Option Int64 := none
  vectorMaxAgeMs : Option Int64 := none
  deriving DecidableEq

namespace EffectiveRetention

def isEmpty (e : EffectiveRetention) : Bool :=
  e.maxAgeMs.isNone && e.maxCount.isNone && e.maxBytes.isNone && e.vectorMaxAgeMs.isNone

/-- One policy fills the dimensions that are still open. -/
def fill (e : EffectiveRetention) (p : RetentionPolicy) : EffectiveRetention where
  maxAgeMs := e.maxAgeMs.or (p.maxAge.map durationToMs)
  maxCount := e.maxCount.or p.maxCount
  maxBytes := e.maxBytes.or p.maxBytes
  vectorMaxAgeMs := e.vectorMaxAgeMs.or (p.vectorMaxAge.map durationToMs)

end EffectiveRetention

/-- The sort by tier is stable, so equal tiers keep their order in the configuration. -/
def resolveEffective (policies : List RetentionPolicy) (sourceId kind : String) :
    EffectiveRetention :=
  let matching := policies.filter fun p => p.applies sourceId kind
  (matching.insertionSort fun a b => a.tier ≤ b.tier).foldl EffectiveRetention.fill {}

example : (resolveEffective [{ matchKind := some "t", maxAge := some (.fromSecs 7) },
    { matchSourceId := some "s", maxAge := some (.fromSecs 30) }] "s" "t@2").maxAgeMs =
    some 30000 := by decide

end Percept
