import Percept.Core

/-! Counters of the ingest side. A counter that was never touched reads zero. -/
namespace Percept

/-- `inc_in_map`. -/
def bump (m : String → ℕ) (key : String) : String → ℕ := Function.update m key (m key+1)

@[simp] theorem bump_self (m : String → ℕ) (key : String) : bump m key key = m key+1 := by
  simp [bump]

theorem bump_ne (m : String → ℕ) {key other : String} (h : other ≠ key) :
    bump m key other = m other := by simp [bump,h]

structure SourceErrors where
  byReason : String → ℕ
  lastErrorTsMsUtc : Int64

structure Metrics where
  acceptedTotal : ℕ
  oversizedSoftTotal : ℕ
  schemaInvalidTotal : ℕ
  shedByReason : String → ℕ
  perTokenAccepted : String → ℕ
  perTokenShed : String → ℕ
  perSourceErrors : String → Option SourceErrors
  consumerDrops : String → ℕ

namespace Metrics

def new : Metrics := ⟨0,0,0,fun _ => 0,fun _ => 0,fun _ => 0,fun _ => none,fun _ => 0⟩

def incAccepted (m : Metrics) (tokenName : Option String) : Metrics :=
  { m with
    acceptedTotal := m.acceptedTotal+1
    perTokenAccepted := match tokenName with
      | some name => bump m.perTokenAccepted name
      | none => m.perTokenAccepted }

def incOversizedSoft (m : Metrics) : Metrics :=
  { m with oversizedSoftTotal := m.oversizedSoftTotal+1 }

def incSchemaInvalid (m : Metrics) : Metrics :=
  { m with schemaInvalidTotal := m.schemaInvalidTotal+1 }

def incShed (m : Metrics) (reason : String) (tokenName : Option String) : Metrics :=
  { m with
    shedByReason := bump m.shedByReason reason
    perTokenShed := match tokenName with
      | some name => bump m.perTokenShed name
      | none => m.perTokenShed }

def incConsumerDrop (m : Metrics) (consumer : String) : Metrics :=
  { m with consumerDrops := bump m.consumerDrops consumer }

def incSourceError (m : Metrics) (sourceId reason : String) (nowMs : Int64) : Metrics :=
  let old := (m.perSourceErrors sourceId).getD ⟨fun _ => 0,0⟩
  { m with perSourceErrors :=
      Function.update m.perSourceErrors sourceId (some ⟨bump old.byReason reason,nowMs⟩) }

end Metrics

end Percept
