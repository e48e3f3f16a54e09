import Percept.LatestAgree

/-! The two eviction loops of `HotRings::push` as they run, on rings that carry no invariant, and
what is left in the rings after any sequence of pushes with any clock readings. -/
namespace Percept

namespace Ring

/-- `while r.events.len() > max_events { pop_front; evicted += 1 }`. -/
def evictByCount (maxEvents : ℕ) : List Event → ℕ → ℕ × List Event
  | [], evicted => (evicted,[])
  | front::events, evicted =>
    if maxEvents < (front::events).length then evictByCount maxEvents events (evicted+1)
    else (evicted,front::events)

/-- `while let Some(front)`: the loop stops at the first event that is young enough. -/
def evictByAge (cutoff : Int64) : List Event → ℕ → ℕ × List Event
  | [], evicted => (evicted,[])
  | front::events, evicted =>
    if front.ageRef < cutoff then evictByAge cutoff events (evicted+1) else (evicted,front::events)

/-- `push_back`, then both loops with one counter. -/
def pushLoops (config : HotRingConfig) (events : List Event) (e : Event) (nowMs : Int64) :
    ℕ × List Event :=
  let counted := evictByCount config.maxEvents (events ++ [e]) 0
  let cutoff := saturatingSub nowMs (durationToMs config.maxAge)
  evictByAge cutoff counted.2 counted.1

/-- A loop takes events from the front and counts each. -/
def Takes (events : List Event) (evicted : ℕ) (out : ℕ × List Event) : Prop :=
  ∃ left, events = left ++ out.2 ∧ out.1 = evicted+left.length

theorem Takes.none (events : List Event) (evicted : ℕ) : Takes events evicted (evicted,events) :=
  ⟨[],rfl,rfl⟩

theorem Takes.pop {events : List Event} {evicted : ℕ} {out : ℕ × List Event} (front : Event)
    (h : Takes events (evicted+1) out) : Takes (front::events) evicted out := by
  obtain ⟨left,hevents,hcount⟩ := h
  refine ⟨front::left,congrArg (front::·) hevents,?_⟩
  rw [hcount,List.length_cons]
  omega

theorem Takes.trans {events : List Event} {evicted : ℕ} {mid out : ℕ × List Event}
    (h : Takes events evicted mid) (h' : Takes mid.2 mid.1 out) : Takes events evicted out := by
  obtain ⟨left,hevents,hcount⟩ := h
  obtain ⟨left',hevents',hcount'⟩ := h'
  refine ⟨left ++ left',?_,?_⟩
  · rw [List.append_assoc,← hevents',← hevents]
  · rw [hcount',hcount,List.length_append,Nat.add_assoc]

theorem evictByCount_takes (maxEvents : ℕ) (events : List Event) (evicted : ℕ) :
    Takes events evicted (evictByCount maxEvents events evicted) := by
  induction events generalizing evicted with
  | nil => exact .none [] evicted
  | cons front events ih =>
    rw [evictByCount]
    split
    · exact (ih (evicted+1)).pop front
    · exact .none _ evicted

theorem evictByAge_takes (cutoff : Int64) (events : List Event) (evicted : ℕ) :
    Takes events evicted (evictByAge cutoff events evicted) := by
  induction events generalizing evicted with
  | nil => exact .none [] evicted
  | cons front events ih =>
    rw [evictByAge]
    split
    · exact (ih (evicted+1)).pop front
    · exact .none _ evicted

theorem evictByCount_snd (maxEvents : ℕ) (events : List Event) (evicted : ℕ) :
    (evictByCount maxEvents events evicted).2 = events.drop (events.length-maxEvents) := by
  induction events generalizing evicted with
  | nil => simp [evictByCount]
  | cons front events ih =>
    rw [evictByCount]
    split
    next hlong =>
      have hstep : (front::events).length-maxEvents = (events.length-maxEvents)+1 := by
        rw [List.length_cons] at hlong ⊢
        omega
      rw [ih,hstep,List.drop_succ_cons]
    next hshort =>
      rw [Nat.sub_eq_zero_of_le (not_lt.mp hshort)]
      rfl

theorem evictByAge_snd (cutoff : Int64) (events : List Event) (evicted : ℕ) :
    (evictByAge cutoff events evicted).2 = events.dropWhile fun e => e.ageRef < cutoff := by
  induction events generalizing evicted with
  | nil => rfl
  | cons front events ih =>
    rw [evictByAge,List.dropWhile_cons]
    by_cases hold : front.ageRef < cutoff
    · rw [if_pos hold,if_pos (decide_eq_true hold),ih]
    · rw [if_neg hold,if_neg fun h => hold (of_decide_eq_true h)]

section Push

variable (config : HotRingConfig) (events : List Event) (e : Event) (nowMs : Int64)

theorem pushLoops_takes : Takes (events ++ [e]) 0 (pushLoops config events e nowMs) :=
  (evictByCount_takes config.maxEvents (events ++ [e]) 0).trans (evictByAge_takes _ _ _)

theorem pushLoops_snd : (pushLoops config events e nowMs).2 = evict config nowMs (events ++ [e]) := by
  rw [pushLoops,evictByAge_snd,evictByCount_snd]
  rfl

/-- The counter is the difference in length. -/
theorem pushLoops_fst : (pushLoops config events e nowMs).1 =
    (events ++ [e]).length-(evict config nowMs (events ++ [e])).length := by
  obtain ⟨left,hevents,hcount⟩ := pushLoops_takes config events e nowMs
  rw [hcount,← pushLoops_snd]
  conv_rhs => rw [hevents]
  rw [List.length_append]
  omega

end Push

end Ring

namespace HotRings

variable {config : HotRingConfig}

theorem snapshot_push_self (h : HotRings config) (e : Event) (nowMs : Int64) :
    (h.push e nowMs).2.snapshot e.pair.1 e.pair.2 =
      Ring.evict config nowMs (h.snapshot e.pair.1 e.pair.2 ++ [e]) := by
  simp only [push,snapshot,Prod.mk.eta,Function.update_self,Option.getD_some]
  rfl

theorem snapshot_push_of_ne (h : HotRings config) (e : Event) (nowMs : Int64) {p : Pair}
    (hp : p ≠ e.pair) : (h.push e nowMs).2.snapshot p.1 p.2 = h.snapshot p.1 p.2 := by
  simp only [push,snapshot,Prod.mk.eta,Function.update_of_ne hp]

end HotRings

/-- `HotRings::rings`, each ring by its events. -/
abbrev RingMap := Pair → Option (List Event)

namespace RingMap

variable (config : HotRingConfig)

/-- The events now in a ring; a pair without a ring has none. -/
def snapshot (m : RingMap) (p : Pair) : List Event := (m p).getD []

/-- `HotRings::push`: the ring is made when it is missing. -/
def push (m : RingMap) (e : Event) (nowMs : Int64) : ℕ × RingMap :=
  let pushed := Ring.pushLoops config (m.snapshot e.pair) e nowMs
  (pushed.1,Function.update m e.pair (some pushed.2))

def pushAll (m : RingMap) (l : List (Event × Int64)) : RingMap :=
  l.foldl (fun m x => (push config m x.1 x.2).2) m

variable {config}

/-- The rings of the map are those of `HotRings`. -/
def Represents (m : RingMap) (h : HotRings config) : Prop := ∀ p, m p = (h.rings p).map Ring.events

theorem Represents.snapshot {m : RingMap} {h : HotRings config} (hm : m.Represents h) (p : Pair) :
    m.snapshot p = h.snapshot p.1 p.2 := by
  rw [RingMap.snapshot,hm p,HotRings.snapshot]
  cases h.rings p <;> rfl

theorem Represents.push {m : RingMap} {h : HotRings config} (hm : m.Represents h) (e : Event)
    (nowMs : Int64) : (m.push config e nowMs).1 = (h.push e nowMs).1 ∧
      (m.push config e nowMs).2.Represents (h.push e nowMs).2 := by
  have hsnapshot : m.snapshot e.pair = ((h.rings e.pair).getD .empty).events := hm.snapshot e.pair
  refine ⟨?_,fun p => ?_⟩
  · simp only [RingMap.push,Ring.pushLoops_fst,hsnapshot]
    rfl
  · simp only [RingMap.push,Ring.pushLoops_snd,hsnapshot]
    by_cases hp : p = e.pair
    · subst hp
      simp only [HotRings.push,Function.update_self]
      rfl
    · simp only [HotRings.push,Function.update_of_ne hp]
      exact hm p

section Runs

variable {m : RingMap}

theorem snapshot_push_self (m : RingMap) (e : Event) (nowMs : Int64) :
    (m.push config e nowMs).2.snapshot e.pair =
      (Ring.pushLoops config (m.snapshot e.pair) e nowMs).2 := by
  simp only [push,snapshot,Function.update_self,Option.getD_some]

theorem push_of_ne (m : RingMap) (e : Event) (nowMs : Int64) {p : Pair} (hp : p ≠ e.pair) :
    (m.push config e nowMs).2 p = m p := Function.update_of_ne hp _ _

/-- What one push keeps of a ring: a suffix of what was pushed for its pair, within its length. -/
structure Recent (config : HotRingConfig) (m : RingMap) (events : List Event) : Prop where
  suffix : ∀ p, m.snapshot p <:+ ofKind p events
  bounded : ∀ p, (m.snapshot p).length ≤ config.maxEvents

theorem Recent.empty : Recent config (fun _ => none) [] :=
  ⟨fun _ => List.nil_suffix,fun _ => Nat.zero_le _⟩

theorem Recent.push {events : List Event} (h : Recent config m events) (e : Event) (nowMs : Int64) :
    Recent config (m.push config e nowMs).2 (events ++ [e]) := by
  refine ⟨fun p => ?_,fun p => ?_⟩
  · by_cases hp : p = e.pair
    · subst hp
      have hof : ofKind e.pair (events ++ [e]) = ofKind e.pair events ++ [e] := by simp [ofKind]
      obtain ⟨left,hleft⟩ := h.suffix e.pair
      have hlonger : m.snapshot e.pair ++ [e] <:+ ofKind e.pair events ++ [e] :=
        ⟨left,by rw [← List.append_assoc,hleft]⟩
      rw [snapshot_push_self,Ring.pushLoops_snd,hof]
      exact (Ring.evict_suffix config nowMs _).trans hlonger
    · have hof : ofKind p (events ++ [e]) = ofKind p events := by simp [ofKind,Ne.symm hp]
      rw [snapshot,push_of_ne m e nowMs hp,hof]
      exact h.suffix p
  · by_cases hp : p = e.pair
    · subst hp
      rw [snapshot_push_self,Ring.pushLoops_snd]
      exact Ring.length_evict_le nowMs _
    · rw [snapshot,push_of_ne m e nowMs hp]
      exact h.bounded p

theorem Recent.pushAll {events : List Event} (h : Recent config m events) (l : List (Event × Int64)) :
    Recent config (m.pushAll config l) (events ++ l.map Prod.fst) := by
  induction l generalizing m events with
  | nil => simpa [RingMap.pushAll] using h
  | cons x l ih =>
    have hrest := ih (h.push x.1 x.2)
    rwa [List.append_assoc] at hrest

end Runs

end RingMap

/-- After every push the ring of a pair holds the last events pushed for it, not more than it may;
the events that left are counted and the other rings are as they were. -/
theorem rings_keep_recent (config : HotRingConfig) (l : List (Event × Int64)) (e : Event) (nowMs : Int64) :
    let before := RingMap.pushAll config (fun _ => none) l
    let pushed := before.push config e nowMs
    (∀ p, pushed.2.snapshot p <:+ ofKind p (l.map Prod.fst ++ [e])) ∧
    (∀ p, (pushed.2.snapshot p).length ≤ config.maxEvents) ∧
    (∃ left, before.snapshot e.pair ++ [e] = left ++ pushed.2.snapshot e.pair ∧
      pushed.1 = left.length) ∧
    ∀ p, p ≠ e.pair → pushed.2 p = before p := by
  intro before pushed
  have hbefore : RingMap.Recent config before ([] ++ l.map Prod.fst) := RingMap.Recent.empty.pushAll l
  have hpushed := hbefore.push e nowMs
  obtain ⟨left,hleft,hcount⟩ := Ring.pushLoops_takes config (before.snapshot e.pair) e nowMs
  refine ⟨hpushed.suffix,hpushed.bounded,⟨left,?_,?_⟩,fun p hp => RingMap.push_of_ne before e nowMs hp⟩
  · rwa [RingMap.snapshot_push_self]
  · rwa [Nat.zero_add] at hcount

end Percept
