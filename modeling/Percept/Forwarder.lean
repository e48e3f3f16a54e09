import Percept.Wire

/-! The forwarder: canonical events become client events with the peer's prefix, and the hub
parses them back as producer events. -/
namespace Percept

/-- `format!("{peer_id}.{}", event.source_id)`. -/
def prefixed (peerId sourceId : String) : String := peerId ++ "." ++ sourceId

def toClientEvent (peerId : String) (event : Event) : ClientEvent :=
  let out := (ClientEvent.new (prefixed peerId event.sourceId) event.kind event.tsMsUtc
    event.semantic).withEventId event.eventId
  let out := match event.traceId with
    | some traceId => out.withTraceId traceId
    | none => out
  match event.producerId with
  | some producerId => out.withProducerId producerId
  | none => out

/-- What the hub obtains from the body of one forwarded batch. -/
def hubEvents (ulid : UlidText) (peerId : String) (events : List Event) :
    Option (List IngestEvent) :=
  (IngestPayload.ofJson ulid (envelope ulid (events.map (toClientEvent peerId)))).map
    IngestPayload.intoEvents

/-- The producer fields of a forwarded event. -/
structure SameContract (peerId : String) (e : Event) (i : IngestEvent) : Prop where
  sourceId : i.sourceId = peerId ++ "." ++ e.sourceId
  eventId : i.eventId = some e.eventId
  kind : i.kind = e.kind
  tsMsUtc : i.tsMsUtc = e.tsMsUtc
  semantic : i.semantic = e.semantic
  links : i.links = e.links
  traceId : i.traceId = e.traceId
  producerId : i.producerId = e.producerId

/-- No builder call sets the links. -/
theorem toIngest_toClientEvent (peerId : String) (e : Event) :
    (toClientEvent peerId e).toIngest =
      ⟨some e.eventId,prefixed peerId e.sourceId,e.kind,e.tsMsUtc,e.semantic,none,e.traceId,
        e.producerId⟩ := by
  unfold toClientEvent
  cases e.traceId <;> cases e.producerId <;> rfl

variable {ulid : UlidText}

theorem hubEvents_eq (hulid : ulid.RoundTrips) (peerId : String) (events : List Event) :
    hubEvents ulid peerId events =
      some (events.map fun e => (toClientEvent peerId e).toIngest) := by
  rw [hubEvents,IngestPayload.ofJson_envelope hulid,List.map_map]
  rfl

theorem sameContract_iff (peerId : String) (e : Event) :
    SameContract peerId e (toClientEvent peerId e).toIngest ↔ e.links = none := by
  rw [toIngest_toClientEvent]
  constructor
  · intro h
    exact h.links.symm
  · intro h
    exact ⟨rfl,rfl,rfl,rfl,rfl,h.symm,rfl,rfl⟩

/-- A forwarded batch keeps the producer contract exactly when no event has links. -/
theorem forwarding_preserves_iff (hulid : ulid.RoundTrips) (peerId : String)
    (events : List Event) :
    (∃ hub, hubEvents ulid peerId events = some hub ∧
      List.Forall₂ (SameContract peerId) events hub) ↔ ∀ e ∈ events, e.links = none := by
  rw [hubEvents_eq hulid]
  simp only [Option.some.injEq,exists_eq_left',List.forall₂_map_right_iff,List.forall₂_same,
    sameContract_iff]

/-- Crockford base 32, most significant digit first. -/
def crockford : List Char :=
  ['0','1','2','3','4','5','6','7','8','9','A','B','C','D','E','F','G','H','J','K','M','N','P','Q',
    'R','S','T','V','W','X','Y','Z']

def base32 : ℕ → ℕ → List Char
  | 0, _ => []
  | n+1, x => base32 n (x/32) ++ [crockford.getD (x%32) '0']

def ofBase32 (s : List Char) : ℕ := s.foldl (fun x c => x*32+crockford.idxOf c) 0

theorem ofBase32_base32 {n x : ℕ} (h : x < 32^n) : ofBase32 (base32 n x) = x := by
  induction n generalizing x with
  | zero =>
    have : x = 0 := by simpa using h
    simp [base32,ofBase32,this]
  | succ n ih =>
    have hdiv : x/32 < 32^n := Nat.div_lt_of_lt_mul (by rwa [pow_succ'] at h)
    have hdigit : ∀ d < 32, crockford.idxOf (crockford.getD d '0') = d := by decide
    have hlast := hdigit (x%32) (Nat.mod_lt _ (by decide))
    have hih := ih hdiv
    unfold ofBase32 at hih ⊢
    rw [base32,List.foldl_append,hih]
    simp only [List.foldl_cons,List.foldl_nil,hlast]
    omega

/-- The text form in 26 digits; lower-case letters are read as upper-case ones. -/
def crockfordText : UlidText where
  toText u := String.ofList (base32 26 u.val)
  ofText s :=
    let digits := s.toList.map Char.toUpper
    if digits.length = 26 ∧ ∀ c ∈ digits, c ∈ crockford then
      some (Fin.ofNat (2^128) (ofBase32 digits))
    else none

theorem base32_digits (n x : ℕ) : (base32 n x).length = n ∧ ∀ c ∈ base32 n x, c ∈ crockford := by
  induction n generalizing x with
  | zero => simp [base32]
  | succ n ih =>
    have hdigit : ∀ d < 32, crockford.getD d '0' ∈ crockford := by decide
    obtain ⟨hlen,hmem⟩ := ih (x/32)
    refine ⟨by simp [base32,hlen],?_⟩
    intro c hc
    rcases List.mem_append.mp hc with h | h
    · exact hmem c h
    · rw [List.mem_singleton.mp h]
      exact hdigit _ (Nat.mod_lt _ (by decide))

theorem toUpper_base32 (n x : ℕ) : (base32 n x).map Char.toUpper = base32 n x := by
  have hbelow : crockford.all (fun c => decide (c.toNat < 'a'.toNat)) = true := by decide
  have hchar : ∀ c ∈ crockford, c.toUpper = c := fun c hc => dif_neg fun hlower => by
    have hlt : c.toNat < 'a'.toNat := of_decide_eq_true (List.all_eq_true.mp hbelow c hc)
    exact absurd (UInt32.le_iff_toNat_le.mp hlower.1) (not_le.mpr hlt)
  have hmap := List.map_congr_left fun c hc => hchar c ((base32_digits n x).2 c hc)
  rw [hmap,List.map_id']

theorem crockfordText_roundTrips : crockfordText.RoundTrips := by
  intro u
  have hvalue : ofBase32 (base32 26 u.val) = u.val := by
    apply ofBase32_base32
    have := u.isLt
    omega
  have hdigits := base32_digits 26 u.val
  simp only [crockfordText,String.toList_ofList,toUpper_base32,hvalue]
  rw [if_pos hdigits,Fin.ofNat_val_eq_self]

/-- An event without links keeps its contract. -/
theorem forwarding_preserves_required :
    ∃ hub, hubEvents crockfordText "edge" [.required 7 "cam" "frame" 5 .null] = some hub ∧
      List.Forall₂ (SameContract "edge") [.required 7 "cam" "frame" 5 .null] hub :=
  (forwarding_preserves_iff crockfordText_roundTrips "edge" _).mpr (by simp [Event.required])

/-- An event with a link reaches the hub without it. -/
theorem forwarding_drops_links :
    crockfordText.RoundTrips ∧
      ∃ hub, hubEvents crockfordText "edge" [{ Event.required 7 "cam" "frame" 5 .null with
        links := some [⟨"frame","s3://bucket/k.jpg",none,none,none⟩] }] = some [hub] ∧
      hub.links = none := by
  refine ⟨crockfordText_roundTrips,_,hubEvents_eq crockfordText_roundTrips _ _,?_⟩
  rfl

end Percept
