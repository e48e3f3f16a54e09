import Percept.ConsumerIsolation
import Percept.Lib.FrontQueue
import Percept.RetentionLaw
import Percept.RingEviction

/-! The age of what a push leaves in a ring. Age is ingest time, the loop looks at the front only,
and the clock that gives both readings may step back. -/
namespace Percept

/-- Not older than `max_age` when the clock reads `nowMs`. -/
def HotRingConfig.Young (config : HotRingConfig) (ageRef nowMs : Int64) : Prop :=
  nowMs.toInt-config.maxAge.asMillis ≤ ageRef.toInt

namespace Arrival

def pair (a : Arrival) : Pair := (a.envelope.event.sourceId,a.envelope.event.kind)

/-- The test of the age loop, for two arrivals. -/
def Stays (config : HotRingConfig) (x z : Arrival) : Prop :=
  ¬ x.ingestMs < saturatingSub z.pushMs (durationToMs config.maxAge)

instance (config : HotRingConfig) : DecidableRel (Stays config) := fun _ _ =>
  inferInstanceAs (Decidable (¬ _))

/-- On readings of the clock the loop tests the age. -/
theorem stays_iff {config : HotRingConfig} {x : Arrival} (hx : 0 ≤ x.ingestMs) (z : Arrival) :
    Stays config x z ↔ config.Young x.ingestMs z.pushMs := by
  have hnow := z.pushMs.toInt_lt
  have hx' : 0 ≤ x.ingestMs.toInt := Int64.le_iff_toInt_le.mp hx
  rw [Stays,lt_saturatingSub_iff (durationToMs_nonneg _),not_lt,HotRingConfig.Young]
  unfold durationToMs
  split
  next hsmall => rw [Int64.toInt_ofNat_of_lt hsmall]
  next hlarge =>
    have hmax : Int64.maxValue.toInt = 2^63-1 := rfl
    rw [hmax]
    omega

end Arrival

section Queue

variable {config : HotRingConfig}

/-- The loops on events are those of the queue on arrivals. -/
theorem evict_ages {events : List Event} {q : List Arrival}
    (h : events.map Event.ageRef = q.map Arrival.ingestMs) {e : Event} {a : Arrival}
    (he : e.ageRef = a.ingestMs) :
    (Ring.evict config a.pushMs (events ++ [e])).map Event.ageRef =
      (FrontQueue.push config.maxEvents (Arrival.Stays config) q a).map Arrival.ingestMs := by
  have hpushed : (events ++ [e]).map Event.ageRef = (q ++ [a]).map Arrival.ingestMs := by
    rw [List.map_append,List.map_append,h,List.map_singleton,List.map_singleton,he]
  have hlength : (events ++ [e]).length = (q ++ [a]).length := by
    simpa only [List.length_map] using congrArg List.length hpushed
  have hstays : (fun x : Arrival => !decide (Arrival.Stays config x a)) =
      (fun ageRef => decide (ageRef < saturatingSub a.pushMs (durationToMs config.maxAge))) ∘
        Arrival.ingestMs := by
    funext x
    rw [Bool.eq_iff_iff]
    simp only [Function.comp_apply,Bool.not_eq_true',decide_eq_false_iff_not,decide_eq_true_eq]
    exact not_not
  have hages : (fun x : Event => decide (x.ageRef < saturatingSub a.pushMs (durationToMs config.maxAge))) =
      (fun ageRef => decide (ageRef < saturatingSub a.pushMs (durationToMs config.maxAge))) ∘
        Event.ageRef := rfl
  rw [Ring.evict,FrontQueue.push,hstays,hages,← List.dropWhile_map,← List.dropWhile_map,List.map_drop,
    List.map_drop,hpushed,hlength]

section Steps

variable {n : Normalizer config} {q : List Arrival} {p : Pair}

/-- A step pushes on the queue of its own pair. -/
theorem ages_step (ulid : UlidText)
    (h : (n.hotRings.snapshot p.1 p.2).map Event.ageRef = q.map Arrival.ingestMs) (a : Arrival) :
    ((n.step ulid a).2.hotRings.snapshot p.1 p.2).map Event.ageRef =
      (if a.pair = p then FrontQueue.push config.maxEvents (Arrival.Stays config) q a else q).map
        Arrival.ingestMs := by
  rw [Normalizer.step_hotRings]
  have hpair : (n.step ulid a).1.pair = a.pair := rfl
  have hage : (n.step ulid a).1.ageRef = a.ingestMs := rfl
  generalize (n.step ulid a).1 = e at hpair hage ⊢
  split
  next hp =>
    subst hp
    rw [← hpair] at h ⊢
    rw [HotRings.snapshot_push_self]
    exact evict_ages h hage
  next hp =>
    rw [HotRings.snapshot_push_of_ne _ _ _ fun hne => hp (hpair.symm.trans hne.symm)]
    exact h

/-- After a run the ages in a ring are those in the queue of the arrivals for its pair. -/
theorem ages_run (ulid : UlidText) (takes : Consumer → ℕ → ℕ) (i : ℕ) (l : List Arrival)
    (h : (n.hotRings.snapshot p.1 p.2).map Event.ageRef = q.map Arrival.ingestMs) :
    ((Normalizer.run ulid takes i l n).2.hotRings.snapshot p.1 p.2).map Event.ageRef =
      ((l.filter fun a => a.pair = p).foldl
        (FrontQueue.push config.maxEvents (Arrival.Stays config)) q).map Arrival.ingestMs := by
  induction l generalizing n q i with
  | nil => exact h
  | cons a l ih =>
    have hdrain : ((n.drain fun c => takes c i).hotRings.snapshot p.1 p.2).map Event.ageRef =
        q.map Arrival.ingestMs := h
    refine (ih (i+1) (ages_step ulid hdrain a)).trans ?_
    by_cases hp : a.pair = p
    · rw [if_pos hp,List.filter_cons_of_pos (by simpa using hp),List.foldl_cons]
    · rw [if_neg hp,List.filter_cons_of_neg (by simpa using hp)]

end Steps

/-- A place in the arrivals of a pair is one in all arrivals. -/
theorem exists_split_of_filter {α : Type} {f : α → Bool} {l before after : List α} {z : α}
    (h : l.filter f = before ++ z::after) :
    ∃ before' after', l = before' ++ z::after' ∧ before'.filter f = before ∧ f z := by
  obtain ⟨l₁,l₂,rfl,hbefore,hrest⟩ := List.filter_eq_append_iff.mp h
  obtain ⟨skipped,after',rfl,hskipped,hz,-⟩ := List.filter_eq_cons_iff.mp hrest
  refine ⟨l₁ ++ skipped,after',by simp,?_,hz⟩
  rw [List.filter_append,hbefore,List.filter_eq_nil_iff.mpr fun x hx => hskipped x hx,List.append_nil]

end Queue

section Runs

variable (ulid : UlidText) (takes : Consumer → ℕ → ℕ) {config : HotRingConfig} (n : Normalizer config)
  (l : List Arrival)

/-- After every push of the normalizer's run each event in the ring is young by the clock of that
push. -/
def LeavesYoung : Prop := ∀ before a after, l = before ++ a::after →
  ∀ x ∈ (Normalizer.run ulid takes 0 (before ++ [a]) n).2.hotRings.snapshot a.pair.1 a.pair.2,
    config.Young x.ageRef a.pushMs

variable {n l}

/-- The ring of the last arrival, by its ages. -/
theorem ages_last (hnew : n.hotRings = .new) (before : List Arrival) (a : Arrival) :
    ((Normalizer.run ulid takes 0 (before ++ [a]) n).2.hotRings.snapshot a.pair.1 a.pair.2).map
      Event.ageRef = (FrontQueue.run config.maxEvents (Arrival.Stays config)
        ((before.filter fun b => b.pair = a.pair) ++ [a])).map Arrival.ingestMs := by
  have hempty : (n.hotRings.snapshot a.pair.1 a.pair.2).map Event.ageRef =
      ([] : List Arrival).map Arrival.ingestMs := by
    rw [hnew]
    rfl
  have hrun := ages_run ulid takes 0 (before ++ [a]) hempty
  rwa [List.filter_append,List.filter_cons_of_pos (by simp),List.filter_nil] at hrun

theorem mem_of_mem_queue {before after : List Arrival} {a y : Arrival} (hy : y ∈ FrontQueue.run
    config.maxEvents (Arrival.Stays config) ((before.filter fun b => b.pair = a.pair) ++ [a])) :
    y ∈ before ++ a::after := by
  rcases List.mem_append.mp ((FrontQueue.run_suffix _).subset hy) with hy | hy
  · exact List.mem_append_left _ (List.mem_of_mem_filter hy)
  · rw [List.mem_singleton.mp hy]
    simp

theorem leavesYoung_iff (hnew : n.hotRings = .new) (hclock : ∀ a ∈ l, 0 ≤ a.ingestMs) :
    LeavesYoung ulid takes n l ↔ ∀ p, FrontQueue.AllFresh config.maxEvents (Arrival.Stays config)
      (l.filter fun a => a.pair = p) := by
  constructor
  · intro h p before z after hsplit y hy
    obtain ⟨before',after',rfl,rfl,hz⟩ := exists_split_of_filter hsplit
    obtain rfl : z.pair = p := of_decide_eq_true hz
    have hage := (ages_last ulid takes hnew before' z).symm ▸ List.mem_map_of_mem (f := Arrival.ingestMs) hy
    obtain ⟨x,hx,hxy⟩ := List.mem_map.mp hage
    have hyoung := h before' z after' rfl x hx
    rw [hxy] at hyoung
    exact (Arrival.stays_iff (hclock y (mem_of_mem_queue hy)) z).mpr hyoung
  · rintro h before a after rfl x hx
    have hage := ages_last ulid takes hnew before a ▸ List.mem_map_of_mem (f := Event.ageRef) hx
    obtain ⟨y,hy,hyx⟩ := List.mem_map.mp hage
    have hsplit : (before ++ a::after).filter (fun b => b.pair = a.pair) =
        before.filter (fun b => b.pair = a.pair) ++ a::after.filter fun b => b.pair = a.pair := by
      rw [List.filter_append,List.filter_cons_of_pos (by simp)]
    have hstays := h a.pair _ a _ hsplit y hy
    rw [← hyx]
    exact (Arrival.stays_iff (hclock y (mem_of_mem_queue hy)) a).mp hstays

/-- A clock that never steps back between the events of a pair is enough. -/
theorem leavesYoung_of_pairwise (hnew : n.hotRings = .new) (hclock : ∀ a ∈ l, 0 ≤ a.ingestMs)
    (h : l.Pairwise fun a b => a.pair = b.pair → a.ingestMs ≤ b.ingestMs) :
    LeavesYoung ulid takes n l := by
  refine (leavesYoung_iff ulid takes hnew hclock).mpr fun p => FrontQueue.allFresh_iff.mpr ?_
  refine FrontQueue.inOrder_of_pairwise ?_
  have hpair : (l.filter fun a => a.pair = p).Pairwise
      fun a b => a.pair = b.pair → a.ingestMs ≤ b.ingestMs := h.sublist List.filter_sublist
  refine hpair.imp_of_mem fun hx hy hle z hstays => ?_
  have hx : _ = p := of_decide_eq_true (List.mem_filter.mp hx).2
  have hy : _ = p := of_decide_eq_true (List.mem_filter.mp hy).2
  exact fun hold => hstays ((hle (hx.trans hy.symm)).trans_lt hold)

end Runs

/-- Every push of the normalizer leaves only young events in its ring exactly when, for each pair,
what is pushed behind an event that has been young since its own push is young as well. -/
theorem ring_age_bound_iff (ulid : UlidText) (takes : Consumer → ℕ → ℕ) {config : HotRingConfig}
    (n : Normalizer config) (hnew : n.hotRings = .new) (l : List Arrival)
    (hclock : ∀ a ∈ l, 0 ≤ a.ingestMs) : LeavesYoung ulid takes n l ↔
    ∀ p, FrontQueue.InOrder config.maxEvents (fun x z : Arrival => config.Young x.ingestMs z.pushMs)
      (l.filter fun a => a.pair = p) := by
  have hstays : ∀ p, ∀ x ∈ l.filter (fun a => a.pair = p), ∀ z,
      Arrival.Stays config x z ↔ config.Young x.ingestMs z.pushMs := fun p x hx =>
    Arrival.stays_iff (hclock x (List.mem_of_mem_filter hx))
  rw [leavesYoung_iff ulid takes hnew hclock]
  refine forall_congr' fun p => FrontQueue.allFresh_iff.trans ⟨?_,?_⟩
  · exact FrontQueue.InOrder.congr (hstays p)
  · exact FrontQueue.InOrder.congr fun x hx z => (hstays p x hx z).symm

/-- A frame that arrives and is pushed at one reading of the clock. -/
def frameArrival (eventId : Ulid) (nowMs : Int64) : Arrival :=
  ⟨⟨⟨some eventId,"cam","frame",5,.null,none,none,none⟩,none⟩,eventId,0,nowMs,nowMs⟩

def emptyRings : Normalizer {} :=
  spawnNormalizer {} .empty ⟨false,fun _ => none,fun _ => none⟩ fun _ => none

theorem ring_age_bound_forward : LeavesYoung crockfordText (fun _ _ => 0) emptyRings
    [frameArrival 1 100000,frameArrival 2 200000] := by
  refine (ring_age_bound_iff crockfordText (fun _ _ => 0) emptyRings rfl
    [frameArrival 1 100000,frameArrival 2 200000] (by decide)).mpr fun p => ?_
  have hsorted : [frameArrival 1 100000,frameArrival 2 200000].Pairwise
      fun x y => x.ingestMs ≤ y.ingestMs := by decide
  exact FrontQueue.inOrder_of_pairwise ((hsorted.sublist List.filter_sublist).imp fun hle z hyoung =>
    hyoung.trans (Int64.le_iff_toInt_le.mp hle))

/-- The clock steps back by 100 s for one frame: the next push leaves that frame, too old, behind
one that is not. -/
theorem ring_age_bound_fails : ¬ LeavesYoung crockfordText (fun _ _ => 0) emptyRings
    [frameArrival 1 200000,frameArrival 2 100000,frameArrival 3 200000] := by
  intro h
  have hleft := h [frameArrival 1 200000,frameArrival 2 100000] (frameArrival 3 200000) [] rfl _
    (List.mem_cons_of_mem _ List.mem_cons_self)
  revert hleft
  unfold HotRingConfig.Young
  decide

end Percept
