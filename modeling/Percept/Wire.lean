import Percept.Core

/-! JSON forms of the producer interface: what the client serializes and what `/ingest`
deserializes. Both follow the `serde` derives at the level of JSON values. -/
namespace Percept

namespace Json

def ofInt64 (n : Int64) : Json := .number (if 0 ≤ n then .posInt n.toUInt64 else .negInt n)

/-- A JSON number that is an `i64`. -/
def toInt64? : Json → Option Int64
  | .number (.posInt n) => if n.toNat < 2^63 then some n.toInt64 else none
  | .number (.negInt n) => some n
  | _ => none

def toString? : Json → Option String
  | .string s => some s
  | _ => none

def toArray? : Json → Option (List Json)
  | .array a => some a
  | _ => none

@[simp] theorem toInt64?_ofInt64 (n : Int64) : (ofInt64 n).toInt64? = some n := by
  unfold ofInt64
  split
  next h =>
    have hlt : n.toUInt64.toNat < 2^63 := Int64.toNat_toUInt64_of_le h ▸ n.toNatClampNeg_lt
    simp only [toInt64?,hlt,if_true,Int64.toInt64_toUInt64]
  next => rfl

/-- A field with `skip_serializing_if = "Option::is_none"`. -/
def optionalField (name : String) (v : Option Json) : List (String × Json) :=
  v.toList.map fun v => (name,v)

/-- A required field. -/
def required {α : Type} (o : List (String × Json)) (name : String) (parse : Json → Option α) :
    Option α :=
  (get? o name).bind parse

/-- An optional field with a default: absent and null are the same. -/
def optional {α : Type} (o : List (String × Json)) (name : String) (parse : Json → Option α) :
    Option (Option α) :=
  match get? o name with
  | none => some none
  | some .null => some none
  | some v => (parse v).map some

/-- No known field twice; unknown fields are ignored or denied. -/
def fieldsOk (known : List String) (denyUnknown : Bool) (o : List (String × Json)) : Bool :=
  decide ((o.map Prod.fst).filter (· ∈ known)).Nodup &&
    (!denyUnknown || (o.map Prod.fst).all (· ∈ known))

/-- A derived struct reads an object by field names or an array by position. -/
def structFields (known : List String) (minimum : ℕ) (denyUnknown : Bool) :
    Json → Option (List (String × Json))
  | .object o => if fieldsOk known denyUnknown o then some o else none
  | .array a => if minimum ≤ a.length ∧ a.length ≤ known.length then some (known.zip a) else none
  | _ => none

@[simp] theorem get?_nil (name : String) : get? [] name = none := rfl

@[simp] theorem get?_cons (k : String) (v : Json) (o : List (String × Json)) (name : String) :
    get? ((k,v)::o) name = if k = name then some v else get? o name := by
  by_cases h : k = name <;> simp [get?,h]

@[simp] theorem get?_optionalField (k : String) (v : Option Json) (o : List (String × Json))
    (name : String) :
    get? (optionalField k v ++ o) name = if k = name then v.or (get? o name) else get? o name := by
  cases v <;> by_cases h : k = name <;> simp [optionalField,h]

@[simp] theorem get?_optionalField_last (k : String) (v : Option Json) (name : String) :
    get? (optionalField k v) name = if k = name then v else none := by
  simpa using get?_optionalField k v [] name

theorem keys_optionalField (name : String) (v : Option Json) :
    ((optionalField name v).map Prod.fst).Sublist [name] := by
  cases v <;> simp [optionalField]

/-- Fields written in the order of the declaration are accepted. -/
theorem structFields_of_sublist {known : List String} (hknown : known.Nodup) (minimum : ℕ)
    (denyUnknown : Bool) {o : List (String × Json)} (h : (o.map Prod.fst).Sublist known) :
    structFields known minimum denyUnknown (.object o) = some o := by
  have hnodup : ((o.map Prod.fst).filter (· ∈ known)).Nodup :=
    hknown.sublist (List.filter_sublist.trans h)
  have hall : (o.map Prod.fst).all (· ∈ known) = true :=
    List.all_eq_true.mpr fun k hk => by simpa using h.subset hk
  have hok : fieldsOk known denyUnknown o = true := by
    simp only [fieldsOk,hnodup,hall,decide_true,Bool.or_true,Bool.and_true]
  simp only [structFields,hok,if_true]

/-- An optional field that was written or skipped reads back. -/
theorem optional_map {α : Type} {o : List (String × Json)} {name : String} {v : Option α}
    (toJson : α → Json) {parse : Json → Option α} (h : get? o name = v.map toJson)
    (hparse : ∀ a, parse (toJson a) = some a) (hnull : ∀ a, toJson a ≠ .null) :
    optional o name parse = some v := by
  unfold optional
  rw [h]
  cases v with
  | none => rfl
  | some a =>
    have hsome : (parse (toJson a)).map some = some (some a) := by rw [hparse]; rfl
    simp only [Option.map_some]
    split
    next hnone => cases hnone
    next heq => exact absurd (Option.some.inj heq) (hnull a)
    next heq => rw [← Option.some.inj heq,hsome]

end Json

/-- Text form of ULIDs; the `ulid` crate stays a parameter. -/
structure UlidText where
  toText : Ulid → String
  ofText : String → Option Ulid

def UlidText.RoundTrips (ulid : UlidText) : Prop := ∀ u, ulid.ofText (ulid.toText u) = some u

namespace Link

def fields : List String := ["rel","uri","mime","bytes","sha256"]

def toJson (l : Link) : Json :=
  .object ([("rel",.string l.rel),("uri",.string l.uri)] ++
    (Json.optionalField "mime" (l.mime.map .string) ++
    (Json.optionalField "bytes" (l.bytes.map .ofInt64) ++
    (Json.optionalField "sha256" (l.sha256.map .string)))))

def ofJson (j : Json) : Option Link := do
  let o ← Json.structFields fields 2 false j
  let rel ← Json.required o "rel" Json.toString?
  let uri ← Json.required o "uri" Json.toString?
  let mime ← Json.optional o "mime" Json.toString?
  let bytes ← Json.optional o "bytes" Json.toInt64?
  let sha256 ← Json.optional o "sha256" Json.toString?
  return { rel, uri, mime, bytes, sha256 }

end Link

/-- An event as a producer sends it. -/
structure IngestEvent where
  eventId : Option Ulid
  sourceId : String
  kind : String
  tsMsUtc : Int64
  semantic : Json
  links : Option (List Link)
  traceId : Option String
  producerId : Option String

namespace IngestEvent

def fields : List String :=
  ["event_id","source_id","kind","ts_ms_utc","semantic","links","trace_id","producer_id"]

/-- `deny_unknown_fields`. -/
def ofJson (ulid : UlidText) (j : Json) : Option IngestEvent := do
  let o ← Json.structFields fields 5 true j
  let eventId ← Json.optional o "event_id" fun j => j.toString?.bind ulid.ofText
  let sourceId ← Json.required o "source_id" Json.toString?
  let kind ← Json.required o "kind" Json.toString?
  let tsMsUtc ← Json.required o "ts_ms_utc" Json.toInt64?
  let semantic ← Json.required o "semantic" some
  let links ← Json.optional o "links" fun j => j.toArray?.bind fun a => a.mapM Link.ofJson
  let traceId ← Json.optional o "trace_id" Json.toString?
  let producerId ← Json.optional o "producer_id" Json.toString?
  return { eventId, sourceId, kind, tsMsUtc, semantic, links, traceId, producerId }

end IngestEvent

/-- `untagged`: the first variant that deserializes. -/
inductive IngestPayload
  | batch (events : List IngestEvent)
  | array (events : List IngestEvent)
  | single (event : IngestEvent)

namespace IngestPayload

def ofJson (ulid : UlidText) (j : Json) : Option IngestPayload :=
  let events (j : Json) := j.toArray?.bind fun a => a.mapM (IngestEvent.ofJson ulid)
  let batch := match j with
    | .object o => if Json.fieldsOk ["events"] false o then Json.required o "events" events else none
    | _ => none
  ((batch.map .batch).or ((events j).map .array)).or ((IngestEvent.ofJson ulid j).map .single)

def intoEvents : IngestPayload → List IngestEvent
  | .batch events => events
  | .array events => events
  | .single e => [e]

end IngestPayload

/-- The client's event; all optional fields are left out when absent. -/
structure ClientEvent where
  eventId : Option Ulid
  sourceId : String
  kind : String
  tsMsUtc : Int64
  semantic : Json
  links : Option (List Link)
  traceId : Option String
  producerId : Option String

namespace ClientEvent

def new (sourceId kind : String) (tsMsUtc : Int64) (semantic : Json) : ClientEvent :=
  ⟨none,sourceId,kind,tsMsUtc,semantic,none,none,none⟩

def withProducerId (e : ClientEvent) (producerId : String) : ClientEvent :=
  { e with producerId := some producerId }

def withTraceId (e : ClientEvent) (traceId : String) : ClientEvent :=
  { e with traceId := some traceId }

def withEventId (e : ClientEvent) (eventId : Ulid) : ClientEvent :=
  { e with eventId := some eventId }

def toJson (ulid : UlidText) (e : ClientEvent) : Json :=
  .object (Json.optionalField "event_id" (e.eventId.map fun u => .string (ulid.toText u)) ++
    ([("source_id",.string e.sourceId),("kind",.string e.kind),
      ("ts_ms_utc",.ofInt64 e.tsMsUtc),("semantic",e.semantic)] ++
    (Json.optionalField "links" (e.links.map fun ls => .array (ls.map Link.toJson)) ++
    (Json.optionalField "trace_id" (e.traceId.map .string) ++
    (Json.optionalField "producer_id" (e.producerId.map .string))))))

/-- The wire event with the same fields. -/
def toIngest (e : ClientEvent) : IngestEvent :=
  ⟨e.eventId,e.sourceId,e.kind,e.tsMsUtc,e.semantic,e.links,e.traceId,e.producerId⟩

end ClientEvent

/-- The body of a request: the batch form. -/
def envelope (ulid : UlidText) (events : List ClientEvent) : Json :=
  .object [("events",.array (events.map (ClientEvent.toJson ulid)))]

theorem mapM_map_some {α β : Type} {f : α → β} {g : β → Option α} (h : ∀ a, g (f a) = some a)
    (l : List α) : (l.map f).mapM g = some l := by
  induction l with
  | nil => rfl
  | cons a l ih => simp [h,ih]

theorem Link.ofJson_toJson (l : Link) : ofJson l.toJson = some l := by
  unfold toJson
  generalize ho : [("rel",Json.string l.rel),("uri",.string l.uri)] ++ _ = o
  have hfields : Json.structFields fields 2 false (.object o) = some o := by
    refine Json.structFields_of_sublist (by decide) _ _ ?_
    simp only [← ho,List.map_append]
    exact (List.Sublist.refl ["rel","uri"]).append ((Json.keys_optionalField _ _).append
      ((Json.keys_optionalField _ _).append (Json.keys_optionalField _ _)))
  have hrel : Json.required o "rel" Json.toString? = some l.rel := by
    simp [← ho,Json.required,Json.toString?]
  have huri : Json.required o "uri" Json.toString? = some l.uri := by
    simp [← ho,Json.required,Json.toString?]
  have hmime : Json.optional o "mime" Json.toString? = some l.mime :=
    Json.optional_map .string (by simp [← ho]) (fun a => rfl) (by simp)
  have hbytes : Json.optional o "bytes" Json.toInt64? = some l.bytes :=
    Json.optional_map Json.ofInt64 (by simp [← ho]) Json.toInt64?_ofInt64 (by simp [Json.ofInt64])
  have hsha : Json.optional o "sha256" Json.toString? = some l.sha256 :=
    Json.optional_map .string (by simp [← ho]) (fun a => rfl) (by simp)
  simp [ofJson,hfields,hrel,huri,hmime,hbytes,hsha]

variable {ulid : UlidText}

theorem IngestEvent.ofJson_toJson (hulid : ulid.RoundTrips) (e : ClientEvent) :
    ofJson ulid (e.toJson ulid) = some e.toIngest := by
  unfold ClientEvent.toJson
  generalize ho : Json.optionalField "event_id" (e.eventId.map fun u => .string (ulid.toText u)) ++
    _ = o
  have hfields : Json.structFields fields 5 true (.object o) = some o := by
    refine Json.structFields_of_sublist (by decide) _ _ ?_
    simp only [← ho,List.map_append]
    exact (Json.keys_optionalField _ _).append
      ((List.Sublist.refl ["source_id","kind","ts_ms_utc","semantic"]).append
      ((Json.keys_optionalField _ _).append ((Json.keys_optionalField _ _).append
        (Json.keys_optionalField _ _))))
  have hid : Json.optional o "event_id" (fun j => j.toString?.bind ulid.ofText) = some e.eventId :=
    Json.optional_map (fun u => .string (ulid.toText u)) (by simp [← ho]) hulid (by simp)
  have hsource : Json.required o "source_id" Json.toString? = some e.sourceId := by
    simp [← ho,Json.required,Json.toString?]
  have hkind : Json.required o "kind" Json.toString? = some e.kind := by
    simp [← ho,Json.required,Json.toString?]
  have hts : Json.required o "ts_ms_utc" Json.toInt64? = some e.tsMsUtc := by
    simp [← ho,Json.required]
  have hsemantic : Json.required o "semantic" some = some e.semantic := by
    simp [← ho,Json.required]
  have hlinks : Json.optional o "links" (fun j => j.toArray?.bind fun a => a.mapM Link.ofJson) =
      some e.links :=
    Json.optional_map (fun ls : List Link => .array (ls.map Link.toJson)) (by simp [← ho])
      (mapM_map_some Link.ofJson_toJson) (by simp)
  have htrace : Json.optional o "trace_id" Json.toString? = some e.traceId :=
    Json.optional_map .string (by simp [← ho]) (fun a => rfl) (by simp)
  have hproducer : Json.optional o "producer_id" Json.toString? = some e.producerId :=
    Json.optional_map .string (by simp [← ho]) (fun a => rfl) (by simp)
  simp [ofJson,hfields,hid,hsource,hkind,hts,hsemantic,hlinks,htrace,hproducer,
    ClientEvent.toIngest]

/-- The hub reads the events that the client serialized. -/
theorem IngestPayload.ofJson_envelope (hulid : ulid.RoundTrips) (events : List ClientEvent) :
    (ofJson ulid (envelope ulid events)).map intoEvents =
      some (events.map ClientEvent.toIngest) := by
  have hevents : (events.map (ClientEvent.toJson ulid)).mapM (IngestEvent.ofJson ulid) =
      some (events.map ClientEvent.toIngest) := by
    induction events with
    | nil => rfl
    | cons e events ih => simp [IngestEvent.ofJson_toJson hulid,ih]
  have hok : Json.fieldsOk ["events"] false
      [("events",.array (events.map (ClientEvent.toJson ulid)))] = true := by
    simp [Json.fieldsOk]
  simp [ofJson,envelope,hok,Json.required,Json.toArray?,hevents,intoEvents]

end Percept
