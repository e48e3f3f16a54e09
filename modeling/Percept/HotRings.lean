import Percept.Retention

/-! In-memory rings, one for each source and kind. A push evicts the oldest events until the
ring is within its length and its front is not too old. -/
namespace Percept

structure HotRingConfig where
  maxEvents : ℕ := 256
  maxAge : Duration := .fromSecs 60

/-- Age is measured against ingest time. -/
def Event.ageRef (e : Event) : Int64 := e.ingestTsMsUtc.getD e.tsMsUtc

structure Ring (config : HotRingConfig) where
  events : List Event
  bounded : events.length ≤ config.maxEvents

namespace Ring

variable {config : HotRingConfig}

/-- What the two eviction loops leave of a ring with the new event at its back. -/
def evict (config : HotRingConfig) (nowMs : Int64) (events : List Event) : List Event :=
  let kept := events.drop (events.length-config.maxEvents)
  let cutoff := saturatingSub nowMs (durationToMs config.maxAge)
  kept.dropWhile fun e => e.ageRef < cutoff

theorem evict_suffix (config : HotRingConfig) (nowMs : Int64) (events : List Event) :
    evict config nowMs events <:+ events :=
  (List.dropWhile_suffix _).trans (List.drop_suffix _ _)

theorem length_evict_le (nowMs : Int64) (events : List Event) :
    (evict config nowMs events).length ≤ config.maxEvents := by
  have hdrop := (List.dropWhile_suffix (l := events.drop (events.length-config.maxEvents))
    fun e : Event => e.ageRef < saturatingSub nowMs (durationToMs config.maxAge)).length_le
  rw [List.length_drop] at hdrop
  refine hdrop.trans ?_
  omega

/-- The event goes in at the back; the number of evicted ones is returned. -/
def push (r : Ring config) (e : Event) (nowMs : Int64) : ℕ × Ring config :=
  let events := evict config nowMs (r.events ++ [e])
  ((r.events ++ [e]).length-events.length,⟨events,length_evict_le nowMs _⟩)

def empty : Ring config := ⟨[],Nat.zero_le _⟩

end Ring

structure HotRings (config : HotRingConfig) where
  rings : Pair → Option (Ring config)

namespace HotRings

variable {config : HotRingConfig}

def new : HotRings config := ⟨fun _ => none⟩

def push (h : HotRings config) (e : Event) (nowMs : Int64) : ℕ × HotRings config :=
  let (evicted,ring) := ((h.rings e.pair).getD .empty).push e nowMs
  (evicted,⟨Function.update h.rings e.pair (some ring)⟩)

/-- The events now in a ring; a pair without a ring has none. -/
def snapshot (h : HotRings config) (sourceId kind : String) : List Event :=
  ((h.rings (sourceId,kind)).getD .empty).events

def latest (h : HotRings config) (sourceId kind : String) : Option Event :=
  (h.snapshot sourceId kind).getLast?

/-- A ring holds the last of the events pushed for its pair. -/
theorem snapshot_push (h : HotRings config) (e : Event) (nowMs : Int64) (p : Pair) :
    (h.push e nowMs).2.snapshot p.1 p.2 <:+
      h.snapshot p.1 p.2 ++ [e].filter fun x => x.pair = p := by
  by_cases hp : e.pair = p
  · subst hp
    have hsuffix := Ring.evict_suffix config nowMs
      (((h.rings e.pair).getD .empty).events ++ [e])
    simpa [push,snapshot,Ring.push,Event.pair] using hsuffix
  · have hne : (p.1,p.2) ≠ e.pair := fun h => hp h.symm
    simp [push,snapshot,hp,Function.update_of_ne hne]

end HotRings

end Percept
