import Percept.PinnedKinds

/-! The age of an event in `get_current_state`: the difference of two `i64`, one of them a
producer's. -/
namespace Percept

/-- The age is the difference of the two times, and the flag compares that difference. -/
structure ExactAge (nowMs : Int64) (x : CurrentStateEntry) : Prop where
  age : x.ageMs.toInt = nowMs.toInt-x.event.tsMsUtc.toInt
  stale : x.stale = true ↔ ∃ ttl, x.descriptor.freshnessTtlMs = some ttl ∧
    ttl.toInt < nowMs.toInt-x.event.tsMsUtc.toInt

/-- From a clock that is not before 1970 only a very old time overflows. -/
theorem toInt_age_iff {nowMs ts : Int64} (hnow : 0 ≤ nowMs.toInt) :
    (nowMs-ts).toInt = nowMs.toInt-ts.toInt ↔ nowMs.toInt-2^63 < ts.toInt := by
  constructor
  · intro h
    have hlt := (nowMs-ts).toInt_lt
    omega
  · intro h
    have hlt := ts.toInt_lt
    rw [Int64.toInt_sub]
    exact Int.bmod_eq_of_le (by norm_num; omega) (by norm_num; omega)

section

variable {config : HotRingConfig} {hot : HotRings config} {cold : Option ColdStore} {nowMs : Int64}

theorem exactAge_iff (hnow : 0 ≤ nowMs.toInt) {d : ResolvedRow} {x : CurrentStateEntry}
    (h : stateEntry hot cold nowMs d = some x) :
    ExactAge nowMs x ↔ nowMs.toInt-2^63 < x.event.tsMsUtc.toInt := by
  obtain ⟨⟨e,fromCold⟩,_,rfl⟩ := Option.map_eq_some_iff.mp h
  rw [← toInt_age_iff hnow]
  constructor
  · intro h
    exact h.age
  · intro h
    refine ⟨h,?_⟩
    simp only [Option.any_eq_true,decide_eq_true_eq,Int64.lt_iff_toInt_lt,h]

/-- An entry of the answer has an exact age and a right flag exactly when its event is less than
`2^63` milliseconds old. -/
theorem freshness_exact_iff {gs : Globset} {rows : List ResolvedRow}
    {sourceFilter kindFilter : Option (List String)} {states : List CurrentStateEntry}
    (hnow : 0 ≤ nowMs.toInt)
    (h : localStates gs rows hot cold nowMs sourceFilter kindFilter = .ok states) :
    ∀ x ∈ states, ExactAge nowMs x ↔ nowMs.toInt-2^63 < x.event.tsMsUtc.toInt := by
  intro x hx
  unfold localStates at h
  cases hrows : filterRows gs rows sourceFilter kindFilter with
  | error e =>
    rw [hrows] at h
    cases h
  | ok rows' =>
    rw [hrows] at h
    obtain rfl := Except.ok.inj h
    obtain ⟨d,_,hd⟩ := List.mem_filterMap.mp hx
    exact exactAge_iff hnow hd

end

/-- The camera with a freshness of one second. -/
def freshConfig : Config := { sources := [{ id := "cam", kinds := ["frame"], freshnessTtlMs := some 1000 }] }

theorem freshness_exact_camera :
    ∃ x, localStates literalGlobs freshConfig.resolveDescriptors
        (cameraRun [cameraArrival "frame" 1]).2.hotRings none 9 none none = .ok [x] ∧
      ExactAge 9 x := by
  obtain ⟨x,hstates,hts⟩ : ∃ x, localStates literalGlobs freshConfig.resolveDescriptors
        (cameraRun [cameraArrival "frame" 1]).2.hotRings none 9 none none = .ok [x] ∧
      x.event.tsMsUtc = 5 := ⟨_,rfl,rfl⟩
  refine ⟨x,hstates,(freshness_exact_iff (by decide) hstates x (List.mem_singleton_self x)).mpr ?_⟩
  rw [hts]
  decide

/-- An event of the oldest time that there is. -/
def ancientEvent : IngestEvent := ⟨none,"cam","frame",Int64.minValue,.null,none,none,none⟩

def ancientRequest : HttpRequest where
  authorization := some "Bearer t"
  body := .ok (.object [("source_id",.string "cam"),("kind",.string "frame"),
    ("ts_ms_utc",.ofInt64 Int64.minValue),("semantic",.null)])

/-- It is accepted, and a tool call at nine milliseconds finds it fresh and of a negative age. -/
theorem freshness_wraps :
    ours (ingest fullAfterOne ancientRequest 9 fun _ => []).2.tx = [⟨ancientEvent,some "cams"⟩] ∧
      ∃ x, localStates literalGlobs freshConfig.resolveDescriptors
          (cameraRun [⟨⟨ancientEvent,some "cams"⟩,1,0,9,9⟩]).2.hotRings none 9 none none = .ok [x] ∧
        x.event.tsMsUtc = Int64.minValue ∧ x.ageMs = Int64.minValue+9 ∧ x.stale = false ∧
          ¬ExactAge 9 x := by
  refine ⟨rfl,_,rfl,rfl,by decide,by decide,fun h => ?_⟩
  exact absurd h.age (by decide)

end Percept
