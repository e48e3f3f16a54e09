import Percept.ConsumerIsolation

/-! What the normalizer has assigned after any number of steps: each source is numbered from one
in order of arrival, and each ring holds the last of the events of its pair. -/
namespace Percept

/-- The events of a source. -/
def ofSource (s : String) (events : List Event) : List Event := events.filter fun e => e.sourceId = s

/-- The events of a source and kind. -/
def ofKind (p : Pair) (events : List Event) : List Event := events.filter fun e => e.pair = p

theorem ofKind_sublist (p : Pair) (events : List Event) :
    (ofKind p events).Sublist (ofSource p.1 events) := by
  induction events with
  | nil => exact List.Sublist.slnil
  | cons e events ih =>
    by_cases hp : e.pair = p
    · have hs : e.sourceId = p.1 := congrArg Prod.fst hp
      simpa [ofKind,ofSource,hp,hs] using ih
    · by_cases hs : e.sourceId = p.1
      · simpa [ofKind,ofSource,hp,hs] using ih.cons e
      · simpa [ofKind,ofSource,hp,hs] using ih

/-- Numbers from one on, as a 64-bit counter gives them. -/
def numbers (n : ℕ) : List (Option UInt64) := (List.range n).map fun i => some (UInt64.ofNat (i+1))

theorem numbers_succ (n : ℕ) : numbers (n+1) = numbers n ++ [some (UInt64.ofNat (n+1))] := by
  simp [numbers,List.range_succ]

@[simp] theorem length_numbers (n : ℕ) : (numbers n).length = n := by simp [numbers]

theorem getElem?_numbers {n i : ℕ} (h : i < n) : (numbers n)[i]? = some (some (UInt64.ofNat (i+1))) := by
  simp [numbers,h]

/-- The first number is below the second. -/
def SeqLt (a b : Option UInt64) : Prop := ∃ x y, a = some x ∧ b = some y ∧ x < y

theorem numbers_ascending {n : ℕ} (hn : n < 2^64) : (numbers n).Pairwise SeqLt := by
  refine List.pairwise_map.mpr (List.pairwise_lt_range.imp_of_mem fun {i j} _ hj hij => ?_)
  have hj := List.mem_range.mp hj
  refine ⟨_,_,rfl,rfl,?_⟩
  rw [UInt64.lt_iff_toNat_lt,UInt64.toNat_ofNat',UInt64.toNat_ofNat',
    Nat.mod_eq_of_lt (show i+1 < 2^64 by omega),Nat.mod_eq_of_lt (show j+1 < 2^64 by omega)]
  omega

namespace Normalizer

variable {config : HotRingConfig} {n : Normalizer config} {events : List Event}

/-- The state of a normalizer that has pushed these events. -/
structure History (n : Normalizer config) (events : List Event) : Prop where
  counter : ∀ s, n.seqBySource s = UInt64.ofNat (ofSource s events).length
  numbered : ∀ s, (ofSource s events).map (·.seq) = numbers (ofSource s events).length
  ring : ∀ p : Pair, n.hotRings.snapshot p.1 p.2 <:+ ofKind p events

/-- What a step keeps of the envelope, and what it assigns. -/
theorem step_event (ulid : UlidText) (n : Normalizer config) (a : Arrival) :
    (n.step ulid a).1.sourceId = a.envelope.event.sourceId ∧
      (n.step ulid a).1.kind = a.envelope.event.kind ∧
      (n.step ulid a).1.tsMsUtc = a.envelope.event.tsMsUtc ∧
      (n.step ulid a).1.semantic = a.envelope.event.semantic ∧
      (n.step ulid a).1.ingestTsMsUtc = some a.ingestMs ∧
      (n.step ulid a).1.seq = some (n.seqBySource a.envelope.event.sourceId+1) :=
  ⟨rfl,rfl,rfl,rfl,rfl,rfl⟩

theorem step_seqBySource (ulid : UlidText) (n : Normalizer config) (a : Arrival) :
    (n.step ulid a).2.seqBySource = Function.update n.seqBySource a.envelope.event.sourceId
      (n.seqBySource a.envelope.event.sourceId+1) := rfl

theorem step_hotRings (ulid : UlidText) (n : Normalizer config) (a : Arrival) :
    (n.step ulid a).2.hotRings = (n.hotRings.push (n.step ulid a).1 a.pushMs).2 := rfl

theorem History.new {n : Normalizer config} (hrings : n.hotRings = .new)
    (hseq : n.seqBySource = fun _ => 0) : n.History [] where
  counter s := by rw [hseq]; rfl
  numbered _ := rfl
  ring p := by rw [hrings]; exact List.nil_suffix

/-- A step adds its event to the history. -/
theorem History.step (h : n.History events) (ulid : UlidText) (a : Arrival) :
    (n.step ulid a).2.History (events ++ [(n.step ulid a).1]) := by
  obtain ⟨hsource,-,-,-,-,hseq⟩ := step_event ulid n a
  have hnext := step_seqBySource ulid n a
  have hrings := step_hotRings ulid n a
  generalize (n.step ulid a).1 = e at hsource hseq hrings ⊢
  rw [← hsource] at hseq hnext
  constructor
  · intro s
    rw [hnext]
    by_cases hs : e.sourceId = s
    · subst hs
      rw [Function.update_self,h.counter]
      simp [ofSource,UInt64.ofNat_add]
    · rw [Function.update_of_ne (Ne.symm hs),h.counter]
      simp [ofSource,hs]
  · intro s
    have hs := h.numbered s
    by_cases hes : e.sourceId = s
    · have hadd : ofSource s (events ++ [e]) = ofSource s events ++ [e] := by
        simp [ofSource,hes]
      rw [hes,h.counter] at hseq
      rw [hadd,List.map_append,hs,List.length_append,List.length_singleton,numbers_succ,
        List.map_singleton,hseq,UInt64.ofNat_add]
      rfl
    · have hadd : ofSource s (events ++ [e]) = ofSource s events := by
        simp [ofSource,hes]
      rw [hadd]
      exact hs
  · intro p
    rw [hrings]
    refine (HotRings.snapshot_push n.hotRings e a.pushMs p).trans ?_
    rw [ofKind,List.filter_append]
    exact List.suffix_append_self_iff.mpr (h.ring p)

/-- Counters of the consumers and their channels are no part of the history. -/
theorem History.of_eq {n' : Normalizer config} (h : n.History events)
    (hrings : n'.hotRings = n.hotRings) (hseq : n'.seqBySource = n.seqBySource) :
    n'.History events :=
  ⟨by rw [hseq]; exact h.counter,h.numbered,by rw [hrings]; exact h.ring⟩

theorem History.run (h : n.History events) (ulid : UlidText) (takes : Consumer → ℕ → ℕ) (i : ℕ)
    (l : List Arrival) :
    (Normalizer.run ulid takes i l n).2.History (events ++ (Normalizer.run ulid takes i l n).1) := by
  induction l generalizing n events i with
  | nil => simpa [Normalizer.run] using h
  | cons a l ih =>
    have hdrain : (n.drain fun c => takes c i).History events := h.of_eq rfl rfl
    have hrest := ih (hdrain.step ulid a) (i+1)
    rwa [List.append_assoc] at hrest

/-- The numbers in a ring ascend as long as the counter of the source has not wrapped. -/
theorem History.ring_ascending (h : n.History events) (p : Pair)
    (hn : (ofSource p.1 events).length < 2^64) :
    ((n.hotRings.snapshot p.1 p.2).map (·.seq)).Pairwise SeqLt := by
  have hsub : ((n.hotRings.snapshot p.1 p.2).map (·.seq)).Sublist
      ((ofSource p.1 events).map (·.seq)) :=
    ((h.ring p).sublist.trans (ofKind_sublist p events)).map _
  rw [h.numbered] at hsub
  exact (numbers_ascending hn).sublist hsub

/-- A ring that is not empty ends in the last event of its pair. -/
theorem History.latest (h : n.History events) {p : Pair}
    (hne : n.hotRings.snapshot p.1 p.2 ≠ []) :
    n.hotRings.latest p.1 p.2 = (ofKind p events).getLast? := by
  obtain ⟨pre,hpre⟩ := h.ring p
  rw [← hpre,HotRings.latest,List.getLast?_append_of_ne_nil _ hne]

end Normalizer

end Percept
