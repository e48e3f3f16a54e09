import Percept.Lib.StableSort
import Percept.Startup

/-! Which entry decides a dimension of the effective retention, and whether vectors can be
configured to outlive their events. The check compares the two ages of one entry; a pair may
take them from two. -/
namespace Percept

namespace RetentionPolicy

def ageMs (p : RetentionPolicy) : Option Int64 := p.maxAge.map durationToMs

def vectorAgeMs (p : RetentionPolicy) : Option Int64 := p.vectorMaxAge.map durationToMs

/-- The policy at that place applies to the pair and sets the dimension, and of those that do it is
the most specific, and the first of its tier. -/
def Decides {β : Type} (dim : RetentionPolicy → Option β) (policies : List RetentionPolicy)
    (sourceId kind : String) (i : ℕ) (v : β) : Prop :=
  ∃ p, policies[i]? = some p ∧ p.applies sourceId kind = true ∧ dim p = some v ∧
    ∀ j q, policies[j]? = some q → q.applies sourceId kind = true → (dim q).isSome →
      p.tier < q.tier ∨ p.tier = q.tier ∧ i ≤ j

end RetentionPolicy

open RetentionPolicy (Decides)

section Resolution

variable {β : Type} {get : EffectiveRetention → Option β} {dim : RetentionPolicy → Option β}
  {policies : List RetentionPolicy} {sourceId kind : String}

/-- A dimension takes its first value. -/
theorem foldl_fill (hfill : ∀ e p, get (EffectiveRetention.fill e p) = (get e).or (dim p))
    (l : List RetentionPolicy) (e : EffectiveRetention) :
    get (l.foldl EffectiveRetention.fill e) = (get e).or (l.findSome? dim) := by
  induction l generalizing e with
  | nil => simp
  | cons p l ih =>
    rw [List.foldl_cons,ih,hfill,List.findSome?_cons,Option.or_assoc]
    cases dim p <;> simp

theorem decides_of_firstAt {pre post : List RetentionPolicy} {p : RetentionPolicy} {v : β}
    (hl : (policies.filter fun q => q.applies sourceId kind) = pre ++ p::post)
    (h : StableSort.FirstAt RetentionPolicy.tier dim pre p post v) :
    ∃ i, Decides dim policies sourceId kind i v := by
  obtain ⟨l₁,l₂,rfl,hl₁,hl₂⟩ := List.filter_eq_append_iff.mp hl
  obtain ⟨l₃,l₄,rfl,hl₃,happ,rfl⟩ := List.filter_eq_cons_iff.mp hl₂
  obtain ⟨hp,hpre,hpost⟩ := h
  refine ⟨(l₁ ++ l₃).length,p,by simp,by simpa using happ,hp,fun j q hj hq hsome => ?_⟩
  rw [← List.append_assoc] at hj
  rcases lt_trichotomy j (l₁ ++ l₃).length with hlt | rfl | hgt
  · rw [List.getElem?_append_left hlt] at hj
    rcases List.mem_append.mp (List.mem_of_getElem? hj) with hmem | hmem
    · exact Or.inl (hpre q (hl₁ ▸ List.mem_filter.mpr ⟨hmem,hq⟩) hsome)
    · exact absurd hq (hl₃ q hmem)
  · rw [List.getElem?_append_right le_rfl,Nat.sub_self,List.getElem?_cons_zero] at hj
    obtain rfl := Option.some.inj hj
    exact Or.inr ⟨rfl,le_rfl⟩
  · rw [List.getElem?_append_right hgt.le] at hj
    obtain ⟨n,hn⟩ : ∃ n, j-(l₁ ++ l₃).length = n+1 := ⟨_,(Nat.succ_pred_eq_of_pos (by omega)).symm⟩
    rw [hn,List.getElem?_cons_succ] at hj
    have hle := hpost q (List.mem_filter.mpr ⟨List.mem_of_getElem? hj,hq⟩) hsome
    rcases hle.lt_or_eq with hlt | heq
    · exact Or.inl hlt
    · exact Or.inr ⟨heq,hgt.le⟩

theorem firstAt_of_decides {i : ℕ} {v : β} (h : Decides dim policies sourceId kind i v) :
    ∃ pre p post, (policies.filter fun q => q.applies sourceId kind) = pre ++ p::post ∧
      StableSort.FirstAt RetentionPolicy.tier dim pre p post v := by
  obtain ⟨p,hi,happ,hp,hmin⟩ := h
  obtain ⟨hlt,hget⟩ := List.getElem?_eq_some_iff.mp hi
  have hsplit : policies = policies.take i ++ p::policies.drop (i+1) := by
    rw [← hget,List.getElem_cons_drop,List.take_append_drop]
  refine ⟨(policies.take i).filter fun q => q.applies sourceId kind,p,
    (policies.drop (i+1)).filter fun q => q.applies sourceId kind,?_,hp,fun q hq hsome => ?_,
    fun q hq hsome => ?_⟩
  · rw [← List.filter_cons_of_pos (p := fun q : RetentionPolicy => q.applies sourceId kind) happ,
      ← List.filter_append,← hsplit]
  · obtain ⟨hmem,hq⟩ := List.mem_filter.mp hq
    obtain ⟨j,hj⟩ := List.mem_iff_getElem?.mp hmem
    have hji : j < i := by
      obtain ⟨hlen,_⟩ := List.getElem?_eq_some_iff.mp hj
      exact hlen.trans_le (List.length_take_le i policies)
    rw [List.getElem?_take_of_lt hji] at hj
    rcases hmin j q hj hq hsome with hlt | ⟨_,hle⟩
    · exact hlt
    · exact absurd hji (not_lt.mpr hle)
  · obtain ⟨hmem,hq⟩ := List.mem_filter.mp hq
    obtain ⟨j,hj⟩ := List.mem_iff_getElem?.mp hmem
    rw [List.getElem?_drop] at hj
    rcases hmin _ q hj hq hsome with hlt | ⟨heq,_⟩
    · exact hlt.le
    · exact heq.le

/-- Each dimension is decided by one entry. -/
theorem resolveEffective_iff (hfill : ∀ e p, get (EffectiveRetention.fill e p) = (get e).or (dim p))
    (hempty : get {} = none) {v : β} : get (resolveEffective policies sourceId kind) = some v ↔
      ∃ i, Decides dim policies sourceId kind i v := by
  unfold resolveEffective
  rw [foldl_fill hfill,hempty,Option.none_or]
  have hfound := StableSort.findSome?_sortBy_iff RetentionPolicy.tier dim
    (policies.filter fun q => q.applies sourceId kind) v
  refine hfound.trans ⟨?_,?_⟩
  · rintro ⟨pre,p,post,hl,h⟩
    exact decides_of_firstAt hl h
  · rintro ⟨i,h⟩
    exact firstAt_of_decides h

theorem maxAgeMs_iff {ms : Int64} : (resolveEffective policies sourceId kind).maxAgeMs = some ms ↔
    ∃ i, Decides RetentionPolicy.ageMs policies sourceId kind i ms :=
  resolveEffective_iff (fun _ _ => rfl) rfl

theorem vectorMaxAgeMs_iff {ms : Int64} :
    (resolveEffective policies sourceId kind).vectorMaxAgeMs = some ms ↔
      ∃ i, Decides RetentionPolicy.vectorAgeMs policies sourceId kind i ms :=
  resolveEffective_iff (fun _ _ => rfl) rfl

theorem maxCount_iff {n : Int64} : (resolveEffective policies sourceId kind).maxCount = some n ↔
    ∃ i, Decides RetentionPolicy.maxCount policies sourceId kind i n :=
  resolveEffective_iff (fun _ _ => rfl) rfl

theorem maxBytes_iff {n : Int64} : (resolveEffective policies sourceId kind).maxBytes = some n ↔
    ∃ i, Decides RetentionPolicy.maxBytes policies sourceId kind i n :=
  resolveEffective_iff (fun _ _ => rfl) rfl

end Resolution

/-- A duration has no sign. -/
theorem durationToMs_nonneg (d : Duration) : 0 ≤ (durationToMs d).toInt := by
  unfold durationToMs
  split_ifs with h
  · rw [Int64.toInt_ofNat_of_lt h]
    exact Int.natCast_nonneg _
  · decide

/-- The saturation of the cutoff does not matter. -/
theorem lt_saturatingSub_iff {now age : Int64} (hage : 0 ≤ age.toInt) (ts : Int64) :
    ts < saturatingSub now age ↔ ts.toInt < now.toInt-age.toInt := by
  have hnow := now.toInt_lt
  have hts := ts.le_toInt
  have hsat : (saturatingSub now age).toInt = max (-2^63) (now.toInt-age.toInt) := by
    rw [saturatingSub,Int64.toInt_ofInt_of_le] <;> omega
  rw [Int64.lt_iff_toInt_lt,hsat]
  omega

section Ages

variable {policies : List RetentionPolicy} {sourceId kind : String} {ms : Int64}

theorem maxAgeMs_nonneg (h : (resolveEffective policies sourceId kind).maxAgeMs = some ms) :
    0 ≤ ms.toInt := by
  obtain ⟨_,p,_,_,hp,_⟩ := maxAgeMs_iff.mp h
  obtain ⟨d,_,rfl⟩ := Option.map_eq_some_iff.mp hp
  exact durationToMs_nonneg d

theorem vectorMaxAgeMs_nonneg (h : (resolveEffective policies sourceId kind).vectorMaxAgeMs = some ms) :
    0 ≤ ms.toInt := by
  obtain ⟨_,p,_,_,hp,_⟩ := vectorMaxAgeMs_iff.mp h
  obtain ⟨d,_,rfl⟩ := Option.map_eq_some_iff.mp hp
  exact durationToMs_nonneg d

end Ages

theorem durationToMs_mono {a b : ℕ} (ha : a < 2^64) (hb : b < 2^64) (h : a ≤ b) :
    durationToMs (.fromSecs (.ofNat a)) ≤ durationToMs (.fromSecs (.ofNat b)) := by
  have hmillis : ∀ n < 2^64, (Duration.fromSecs (.ofNat n)).asMillis = n*1000 := by
    intro n hn
    simp [Duration.asMillis,Duration.fromSecs,UInt64.toNat_ofNat_of_lt' hn]
  rw [durationToMs,durationToMs,hmillis a ha,hmillis b hb,Int64.le_iff_toInt_le]
  split_ifs with h₁ h₂
  · rw [Int64.toInt_ofNat_of_lt h₁,Int64.toInt_ofNat_of_lt h₂]
    omega
  · rw [Int64.toInt_ofNat_of_lt h₁]
    have : Int64.maxValue.toInt = 2^63-1 := by decide
    omega
  · omega
  · exact le_rfl

theorem parseAge_some {context : String → DurationError → RetentionError} {age : Option String}
    {d : Duration} (h : parseAge context age = .ok (some d)) :
    ∃ s, age = some s ∧ parseDuration s = .ok d := by
  cases age with
  | none => cases h
  | some s =>
    unfold parseAge parseDurationStr at h
    dsimp only at h
    cases hparse : parseDuration s with
    | error e => rw [hparse] at h; cases h
    | ok d' =>
      rw [hparse] at h
      obtain rfl := Option.some.inj (Except.ok.inj h)
      exact ⟨s,rfl,hparse⟩

section Law

variable {cfg : Config} {policies : List RetentionPolicy}

/-- The ages of one entry are in order once the check has passed. -/
theorem ages_of_entry (hcheck : cfg.check = .ok ()) (hbuild : buildRetentionPolicies cfg = .ok policies)
    {p : RetentionPolicy} (hp : p ∈ policies) {v m : Int64} (hv : p.vectorAgeMs = some v)
    (hm : p.ageMs = some m) : v ≤ m := by
  obtain ⟨i,hi⟩ := List.mem_iff_getElem?.mp hp
  have hall := mapM_ok_iff.mp hbuild
  obtain ⟨hlt,rfl⟩ := List.getElem?_eq_some_iff.mp hi
  have hlen := hall.length_eq
  have hentry := (List.forall₂_iff_get.mp hall).2 i (by omega) hlt
  simp only [List.get_eq_getElem] at hentry
  obtain ⟨maxAge,hmax,hentry⟩ := exists_of_bind hentry
  obtain ⟨vectorMaxAge,hvector,hentry⟩ := exists_of_bind hentry
  rw [← Except.ok.inj hentry] at hv hm
  obtain ⟨vec,rfl,rfl⟩ := Option.map_eq_some_iff.mp hv
  obtain ⟨raw,rfl,rfl⟩ := Option.map_eq_some_iff.mp hm
  obtain ⟨a,ha,hraw⟩ := parseAge_some hmax
  obtain ⟨b,hb,hvec⟩ := parseAge_some hvector
  obtain ⟨raw',vec',hraw',hvec',hle⟩ :=
    Config.ages_of_check hcheck (List.getElem_mem (by omega)) ha hb
  obtain rfl := Except.ok.inj (hraw.symm.trans hraw')
  obtain rfl := Except.ok.inj (hvec.symm.trans hvec')
  obtain ⟨n,⟨_,_,_,_,_,_,_,_,hn⟩,rfl⟩ := parseDuration_ok_iff.mp hraw
  obtain ⟨k,⟨_,_,_,_,_,_,_,_,hk⟩,rfl⟩ := parseDuration_ok_iff.mp hvec
  refine durationToMs_mono hk hn ?_
  rw [UInt64.le_iff_toNat_le] at hle
  simpa [Duration.fromSecs,UInt64.toNat_ofNat_of_lt' hn,UInt64.toNat_ofNat_of_lt' hk] using hle

/-- The vectors of a pair stay within its events exactly when no two entries disagree that decide
its two ages. -/
theorem vectors_within_events_iff (hcheck : cfg.check = .ok ())
    (hbuild : buildRetentionPolicies cfg = .ok policies) (sourceId kind : String) :
    (∀ v m, (resolveEffective policies sourceId kind).vectorMaxAgeMs = some v →
      (resolveEffective policies sourceId kind).maxAgeMs = some m → v ≤ m) ↔
    ∀ i j v m, i ≠ j → Decides RetentionPolicy.vectorAgeMs policies sourceId kind i v →
      Decides RetentionPolicy.ageMs policies sourceId kind j m → v ≤ m := by
  simp only [maxAgeMs_iff,vectorMaxAgeMs_iff]
  constructor
  · intro h i j v m _ hv hm
    exact h v m ⟨i,hv⟩ ⟨j,hm⟩
  · rintro h v m ⟨i,hv⟩ ⟨j,hm⟩
    by_cases hij : i = j
    · subst hij
      obtain ⟨p,hp,_,hpv,_⟩ := hv
      obtain ⟨q,hq,_,hqm,_⟩ := hm
      obtain rfl := Option.some.inj (hp.symm.trans hq)
      exact ages_of_entry hcheck hbuild (List.mem_of_getElem? hp) hpv hqm
    · exact h i j v m hij hv hm

end Law

/-- The camera keeps its events for a day; frames keep their vectors for a month. -/
def mixedEntries : Config where
  retention := [{ matchSourceId := some "cam", maxAge := some "1d" },
    { matchKind := some "frame", vectorMaxAge := some "30d" }]

/-- What the entries are built to. -/
def mixedPolicies : List RetentionPolicy :=
  [{ matchSourceId := some "cam", maxAge := some (.fromSecs 86400) },
    { matchKind := some "frame", vectorMaxAge := some (.fromSecs 2592000) }]

/-- Two entries, each of which is in order. -/
theorem vectors_within_events_fails : mixedEntries.check = .ok () ∧
    buildRetentionPolicies mixedEntries = .ok mixedPolicies ∧
    (resolveEffective mixedPolicies "cam" "frame").maxAgeMs = some 86400000 ∧
    (resolveEffective mixedPolicies "cam" "frame").vectorMaxAgeMs = some 2592000000 :=
  ⟨by rfl,by rfl,by decide,by decide⟩

/-- For another camera the second entry alone decides. -/
theorem vectors_within_events_other_camera :
    (resolveEffective mixedPolicies "door" "frame").vectorMaxAgeMs = some 2592000000 ∧
    ∀ v m, (resolveEffective mixedPolicies "door" "frame").vectorMaxAgeMs = some v →
      (resolveEffective mixedPolicies "door" "frame").maxAgeMs = some m → v ≤ m := by
  have hcheck : mixedEntries.check = .ok () := by rfl
  refine ⟨by decide,(vectors_within_events_iff hcheck (by rfl) "door" "frame").mpr ?_⟩
  rintro i j v m _ _ ⟨p,hp,happ,hm,_⟩
  rcases j with _ | _ | j
  · obtain rfl := Option.some.inj hp
    exact absurd happ (by decide)
  · obtain rfl := Option.some.inj hp
    cases hm
  · cases hp

end Percept
