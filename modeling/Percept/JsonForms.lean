import Percept.CurrentState
import Percept.PeerCoverage
import Percept.SearchEvents

/-! `serde_json::to_value` of what the MCP tools return, and `from_value` of what they are given. A
`Map` keeps its keys in order, so a field is inserted where its name belongs. -/
namespace Percept

namespace Json

/-- Keys in strictly increasing order. -/
def Sorted (o : List (String × Json)) : Prop := (o.map Prod.fst).Pairwise (· < ·)

theorem mem_keys_insert {name k : String} {v : Json} {o : List (String × Json)} :
    k ∈ (insert name v o).map Prod.fst ↔ k = name ∨ k ∈ o.map Prod.fst := by
  induction o with
  | nil => simp [insert]
  | cons f rest ih =>
    unfold insert
    split_ifs with hlt heq
    · simp
    · simp [heq]
    · rw [List.map_cons,List.mem_cons,ih,List.map_cons,List.mem_cons]
      tauto

theorem Sorted.insert {o : List (String × Json)} (h : Sorted o) (name : String) (v : Json) :
    Sorted (insert name v o) := by
  induction o with
  | nil => exact List.pairwise_singleton _ _
  | cons f rest ih =>
    obtain ⟨hf,hrest⟩ := List.pairwise_cons.mp h
    unfold Json.insert
    split_ifs with hlt heq
    · refine List.pairwise_cons.mpr ⟨fun k hk => ?_,h⟩
      rcases List.mem_cons.mp hk with rfl | hk
      · exact hlt
      · exact hlt.trans (hf k hk)
    · exact List.pairwise_cons.mpr ⟨heq ▸ hf,hrest⟩
    · refine List.pairwise_cons.mpr ⟨fun k hk => ?_,ih hrest⟩
      rcases mem_keys_insert.mp hk with rfl | hk
      · exact lt_of_le_of_ne (not_lt.mp hlt) (Ne.symm heq)
      · exact hf k hk

/-- A value under a key is replaced. -/
theorem insert_insert (name : String) (v w : Json) (o : List (String × Json)) :
    insert name v (insert name w o) = insert name v o := by
  induction o with
  | nil => simp [insert]
  | cons f rest ih =>
    by_cases hlt : name < f.1
    · simp [insert,hlt]
    · by_cases heq : name = f.1
      · simp [insert,heq]
      · simp [insert,hlt,heq,ih]

/-- The fields of a struct or of a `json!` literal, put into a map one after the other. -/
def mapOf (fields : List (String × Json)) : List (String × Json) :=
  fields.foldl (fun o f => insert f.1 f.2 o) []

def ofFields (fields : List (String × Json)) : Json := .object (mapOf fields)

theorem sorted_foldl (fields : List (String × Json)) {o : List (String × Json)} (h : Sorted o) :
    Sorted (fields.foldl (fun o f => insert f.1 f.2 o) o) := by
  induction fields generalizing o with
  | nil => exact h
  | cons f fields ih => exact ih (h.insert f.1 f.2)

theorem sorted_mapOf (fields : List (String × Json)) : Sorted (mapOf fields) :=
  sorted_foldl fields List.Pairwise.nil

theorem mem_keys_foldl {k : String} (fields o : List (String × Json)) :
    k ∈ (fields.foldl (fun o f => insert f.1 f.2 o) o).map Prod.fst ↔
      k ∈ fields.map Prod.fst ∨ k ∈ o.map Prod.fst := by
  induction fields generalizing o with
  | nil => simp
  | cons f fields ih =>
    rw [List.foldl_cons,ih,mem_keys_insert,List.map_cons,List.mem_cons]
    tauto

theorem mem_keys_mapOf {k : String} {fields : List (String × Json)} :
    k ∈ (mapOf fields).map Prod.fst ↔ k ∈ fields.map Prod.fst :=
  (mem_keys_foldl fields []).trans (or_iff_left List.not_mem_nil)

theorem get?_foldl {fields : List (String × Json)} (hnd : (fields.map Prod.fst).Nodup)
    (o : List (String × Json)) (name : String) :
    get? (fields.foldl (fun o f => insert f.1 f.2 o) o) name = (get? fields name).or (get? o name) := by
  induction fields generalizing o with
  | nil => rfl
  | cons f fields ih =>
    obtain ⟨k,v⟩ := f
    obtain ⟨hk,hnd⟩ := List.nodup_cons.mp hnd
    rw [List.foldl_cons,ih hnd,get?_cons]
    by_cases hname : k = name
    · have hlater : get? fields name = none := by
        have hnone : fields.find? (fun f => f.1 = name) = none := by
          rw [List.find?_eq_none]
          intro f hf hfname
          simp only [decide_eq_true_eq] at hfname
          exact hk (List.mem_map.mpr ⟨f,hf,hfname.trans hname.symm⟩)
        rw [get?,hnone,Option.map_none]
      rw [hlater,if_pos hname,hname,get?_insert]
      rfl
    · rw [if_neg hname,get?_insert_of_ne (Ne.symm hname)]

/-- Fields with different names are found under their names. -/
theorem get?_mapOf {fields : List (String × Json)} (hnd : (fields.map Prod.fst).Nodup) (name : String) :
    get? (mapOf fields) name = get? fields name := by
  rw [mapOf,get?_foldl hnd,get?_nil,Option.or_none]

theorem member_ofFields {fields : List (String × Json)} (hnd : (fields.map Prod.fst).Nodup) (name : String) :
    (ofFields fields).member name = get? fields name := get?_mapOf hnd name

/-- A derived struct reads the map of its own fields. -/
theorem structFields_ofFields {known : List String} (hknown : known.Nodup) (minimum : ℕ) (denyUnknown : Bool)
    {fields : List (String × Json)} (h : (fields.map Prod.fst).Sublist known) :
    ∃ m, structFields known minimum denyUnknown (ofFields fields) = some m ∧
      ∀ name, get? m name = get? fields name := by
  refine ⟨mapOf fields,?_,get?_mapOf (hknown.sublist h)⟩
  have hnodup : ((mapOf fields).map Prod.fst).Nodup := (sorted_mapOf fields).imp ne_of_lt
  have hall : ((mapOf fields).map Prod.fst).all (· ∈ known) = true :=
    List.all_eq_true.mpr fun k hk => by simpa using h.subset (mem_keys_mapOf.mp hk)
  have hok : fieldsOk known denyUnknown (mapOf fields) = true := by
    simp only [fieldsOk,hnodup.filter,hall,decide_true,Bool.or_true,Bool.and_true]
  simp only [ofFields,structFields,hok,if_true]

theorem optional_some {α : Type} {o : List (String × Json)} {name : String} {v : Json}
    (h : get? o name = some v) (hnull : v ≠ .null) (parse : Json → Option α) :
    optional o name parse = (parse v).map some := by
  unfold optional
  rw [h]
  cases v with
  | null => exact absurd rfl hnull
  | _ => rfl

def toBool? : Json → Option Bool
  | .bool b => some b
  | _ => none

def ofUInt64 (n : UInt64) : Json := .number (.posInt n)

def toUInt64? : Json → Option UInt64
  | .number (.posInt n) => some n
  | _ => none

/-- A JSON number that is a `u32`. -/
def toUInt32? : Json → Option UInt32
  | .number (.posInt n) => if n.toNat < 2^32 then some n.toUInt32 else none
  | _ => none

/-- An array of strings. -/
def toStrings? (v : Json) : Option (List String) := v.toArray?.bind fun a => a.mapM toString?

def ofStrings (l : List String) : Json := .array (l.map .string)

@[simp] theorem toStrings?_ofStrings (l : List String) : (ofStrings l).toStrings? = some l :=
  mapM_map_some (f := Json.string) (g := toString?) (fun _ => rfl) l

end Json

open Json

def Link.toValue (l : Link) : Json :=
  ofFields ([("rel",.string l.rel),("uri",.string l.uri)] ++ (optionalField "mime" (l.mime.map .string) ++
    (optionalField "bytes" (l.bytes.map .ofInt64) ++ optionalField "sha256" (l.sha256.map .string))))

theorem Link.ofJson_toValue (l : Link) : ofJson l.toValue = some l := by
  unfold toValue
  generalize ho : [("rel",Json.string l.rel),("uri",.string l.uri)] ++ _ = o
  obtain ⟨m,hfields,hget⟩ := structFields_ofFields (by decide) 2 false (show (o.map Prod.fst).Sublist Link.fields by
    simp only [← ho,List.map_append]
    exact (List.Sublist.refl ["rel","uri"]).append ((keys_optionalField _ _).append
      ((keys_optionalField _ _).append (keys_optionalField _ _))))
  have hrel : required m "rel" toString? = some l.rel := by
    simp [required,hget,← ho,Json.toString?]
  have huri : required m "uri" toString? = some l.uri := by
    simp [required,hget,← ho,Json.toString?]
  have hmime : optional m "mime" toString? = some l.mime :=
    optional_map .string (by simp [hget,← ho]) (fun a => rfl) (by simp)
  have hbytes : optional m "bytes" toInt64? = some l.bytes :=
    optional_map ofInt64 (by simp [hget,← ho]) toInt64?_ofInt64 (by simp [ofInt64])
  have hsha : optional m "sha256" toString? = some l.sha256 :=
    optional_map .string (by simp [hget,← ho]) (fun a => rfl) (by simp)
  simp [ofJson,hfields,hrel,huri,hmime,hbytes,hsha]

namespace Event

def fieldNames : List String := ["event_id","source_id","kind","ts_ms_utc","semantic","links","trace_id",
  "ingest_ts_ms_utc","seq","producer_id","_schema_invalid"]

def toValue (ulid : UlidText) (e : Event) : Json :=
  ofFields ([("event_id",.string (ulid.toText e.eventId)),("source_id",.string e.sourceId),
      ("kind",.string e.kind),("ts_ms_utc",.ofInt64 e.tsMsUtc),("semantic",e.semantic)] ++
    (optionalField "links" (e.links.map fun ls => .array (ls.map Link.toValue)) ++
    (optionalField "trace_id" (e.traceId.map .string) ++
    (optionalField "ingest_ts_ms_utc" (e.ingestTsMsUtc.map .ofInt64) ++
    (optionalField "seq" (e.seq.map .ofUInt64) ++
    (optionalField "producer_id" (e.producerId.map .string) ++
    optionalField "_schema_invalid" (e.schemaInvalid.map .bool)))))))

/-- Unknown fields are ignored. -/
def ofJson (ulid : UlidText) (j : Json) : Option Event := do
  let o ← structFields fieldNames 5 false j
  let eventId ← Json.required o "event_id" fun j => j.toString?.bind ulid.ofText
  let sourceId ← Json.required o "source_id" toString?
  let kind ← Json.required o "kind" toString?
  let tsMsUtc ← Json.required o "ts_ms_utc" toInt64?
  let semantic ← Json.required o "semantic" some
  let links ← optional o "links" fun j => j.toArray?.bind fun a => a.mapM Link.ofJson
  let traceId ← optional o "trace_id" toString?
  let ingestTsMsUtc ← optional o "ingest_ts_ms_utc" toInt64?
  let seq ← optional o "seq" toUInt64?
  let producerId ← optional o "producer_id" toString?
  let schemaInvalid ← optional o "_schema_invalid" toBool?
  return ⟨eventId,sourceId,kind,tsMsUtc,semantic,links,traceId,ingestTsMsUtc,seq,producerId,schemaInvalid⟩

/-- An event that was serialized reads back. -/
theorem ofJson_toValue {ulid : UlidText} (hulid : ulid.RoundTrips) (e : Event) :
    ofJson ulid (e.toValue ulid) = some e := by
  unfold toValue
  generalize ho : [("event_id",Json.string (ulid.toText e.eventId)),_,_,_,_] ++ _ = o
  obtain ⟨m,hfields,hget⟩ := structFields_ofFields (by decide) 5 false (show (o.map Prod.fst).Sublist fieldNames by
    simp only [← ho,List.map_append]
    exact (List.Sublist.refl ["event_id","source_id","kind","ts_ms_utc","semantic"]).append
      ((keys_optionalField _ _).append ((keys_optionalField _ _).append ((keys_optionalField _ _).append
      ((keys_optionalField _ _).append ((keys_optionalField _ _).append (keys_optionalField _ _)))))))
  have hid : Json.required m "event_id" (fun j => j.toString?.bind ulid.ofText) = some e.eventId := by
    simp [Json.required,hget,← ho,Json.toString?,hulid e.eventId]
  have hsource : Json.required m "source_id" toString? = some e.sourceId := by
    simp [Json.required,hget,← ho,Json.toString?]
  have hkind : Json.required m "kind" toString? = some e.kind := by
    simp [Json.required,hget,← ho,Json.toString?]
  have hts : Json.required m "ts_ms_utc" toInt64? = some e.tsMsUtc := by
    simp [Json.required,hget,← ho]
  have hsemantic : Json.required m "semantic" some = some e.semantic := by
    simp [Json.required,hget,← ho]
  have hlinks : optional m "links" (fun j => j.toArray?.bind fun a => a.mapM Link.ofJson) =
      some e.links :=
    optional_map (fun ls : List Link => .array (ls.map Link.toValue)) (by simp [hget,← ho])
      (mapM_map_some Link.ofJson_toValue) (by simp)
  have htrace : optional m "trace_id" toString? = some e.traceId :=
    optional_map .string (by simp [hget,← ho]) (fun a => rfl) (by simp)
  have hingest : optional m "ingest_ts_ms_utc" toInt64? = some e.ingestTsMsUtc :=
    optional_map ofInt64 (by simp [hget,← ho]) toInt64?_ofInt64 (by simp [ofInt64])
  have hseq : optional m "seq" toUInt64? = some e.seq :=
    optional_map ofUInt64 (by simp [hget,← ho]) (fun a => rfl) (by simp [ofUInt64])
  have hproducer : optional m "producer_id" toString? = some e.producerId :=
    optional_map .string (by simp [hget,← ho]) (fun a => rfl) (by simp)
  have hinvalid : optional m "_schema_invalid" toBool? = some e.schemaInvalid :=
    optional_map .bool (by simp [hget,← ho]) (fun a => rfl) (by simp)
  simp [ofJson,hfields,hid,hsource,hkind,hts,hsemantic,hlinks,htrace,hingest,hseq,hproducer,hinvalid]

end Event

/-- The reasons under which errors of a source are counted. -/
def errorReasons : List String := ["bus_full","payload_too_large","rate_limit","schema_invalid","unauthorized"]

/-- `RecentErrors`: the counters above zero and the time of the last error. -/
def SourceErrors.toValue (s : SourceErrors) : Json :=
  ofFields [("counters",ofFields ((errorReasons.filter fun r => 0 < s.byReason r).map fun r =>
      (r,ofUInt64 (.ofNat (s.byReason r))))),
    ("last_error_ts_ms_utc",.ofInt64 s.lastErrorTsMsUtc)]

def EffectiveRetention.toValue (e : EffectiveRetention) : Json :=
  ofFields (optionalField "max_age_ms" (e.maxAgeMs.map .ofInt64) ++
    (optionalField "max_count" (e.maxCount.map .ofInt64) ++
    (optionalField "max_bytes" (e.maxBytes.map .ofInt64) ++
    optionalField "vector_max_age_ms" (e.vectorMaxAgeMs.map .ofInt64))))

def ResolvedRow.fields (d : ResolvedRow) : List (String × Json) :=
  [("source_id",.string d.sourceId),("kind",.string d.kind),("kind_version",.string d.kindVersion),
    ("description",.string d.description),("usage",.string d.usage),("caveats",.string d.caveats)] ++
  (optionalField "semantic_schema" d.semanticSchema ++
  (optionalField "units" (d.units.map .string) ++
  (optionalField "sampling_hint_ms" (d.samplingHintMs.map .ofInt64) ++
  (optionalField "freshness_ttl_ms" (d.freshnessTtlMs.map .ofInt64) ++
  optionalField "location" (d.location.map .string)))))

/-- The descriptor is flattened. -/
def DescribeSourcesEntry.fields (x : DescribeSourcesEntry) : List (String × Json) :=
  mapOf (x.descriptor.fields ++ (optionalField "recent_errors" (x.recentErrors.map SourceErrors.toValue) ++
    optionalField "effective_retention" (x.effectiveRetention.map EffectiveRetention.toValue)))

def CurrentStateEntry.fields (ulid : UlidText) (x : CurrentStateEntry) : List (String × Json) :=
  mapOf [("event",x.event.toValue ulid),("age_ms",.ofInt64 x.ageMs),("stale",.bool x.stale),
    ("from_cold",.bool x.fromCold),("descriptor",ofFields x.descriptor.fields)]

/-- `tag = "status"`. -/
def PeerStatus.toValue : PeerStatus → Json
  | .ok => ofFields [("status",.string "ok")]
  | .timeout => ofFields [("status",.string "timeout")]
  | .error message => ofFields [("status",.string "error"),("message",.string message)]

/-- The statuses by peer id. -/
def peerStatusValue (peers : List PeerHandle) (status : String → Option PeerStatus) : Json :=
  ofFields (peers.flatMap fun p => (status p.id).toList.map fun s => (p.id,s.toValue))

/-- The object that a federated tool returns; without peers there is no `peer_status`. -/
def ToolOutput.toValue (member : String) (peers : List PeerHandle) (out : ToolOutput) : Json :=
  ofFields ((member,.array out.rows)::
    (if peers.isEmpty then [] else [("peer_status",peerStatusValue peers out.peerStatus)]))

def orNull : Option Json → Json
  | none => .null
  | some v => v

def GetWindowOut.toValue (ulid : UlidText) (out : GetWindowOut) : Json :=
  ofFields [("events",.array (out.events.map (Event.toValue ulid))),
    ("cursor",orNull (out.cursor.map .string))]

def SearchHitOut.toValue {S : Type} (ulid : UlidText) (score : S → Json) (hit : SearchHitOut S) : Json :=
  ofFields [("event",hit.event.toValue ulid),("score",score hit.score),("truncated",.bool hit.truncated)]

/-- The arguments of the two federated tools. -/
structure FilterArgs where
  sourceFilter : Option (List String) := none
  kindFilter : Option (List String) := none

abbrev DescribeSourcesArgs := FilterArgs

abbrev GetCurrentStateArgs := FilterArgs

namespace FilterArgs

def ofJson (j : Json) : Option FilterArgs := do
  let o ← structFields ["source_filter","kind_filter"] 0 true j
  let sourceFilter ← optional o "source_filter" toStrings?
  let kindFilter ← optional o "kind_filter" toStrings?
  return ⟨sourceFilter,kindFilter⟩

/-- What a peer is sent; an absent filter is null. -/
def payload (args : FilterArgs) : Json :=
  ofFields [("source_filter",orNull (args.sourceFilter.map ofStrings)),
    ("kind_filter",orNull (args.kindFilter.map ofStrings))]

theorem optional_orNull {o : List (String × Json)} {name : String} {v : Option (List String)}
    (h : get? o name = some (orNull (v.map ofStrings))) : optional o name toStrings? = some v := by
  unfold Json.optional
  rw [h]
  cases v with
  | none => rfl
  | some l =>
    simp only [Option.map_some,orNull]
    split
    next hnone => cases hnone
    next heq => cases heq
    next heq =>
      obtain rfl := Option.some.inj heq
      rw [toStrings?_ofStrings]
      rfl

/-- A peer reads the filters that it was sent. -/
theorem ofJson_payload (args : FilterArgs) : ofJson args.payload = some args := by
  unfold payload
  generalize ho : [("source_filter",orNull (args.sourceFilter.map ofStrings)),_] = o
  obtain ⟨m,hfields,hget⟩ := structFields_ofFields (by decide) 0 true
    (show (o.map Prod.fst).Sublist ["source_filter","kind_filter"] by simp [← ho])
  have hsource : optional m "source_filter" toStrings? = some args.sourceFilter :=
    optional_orNull (by simp [hget,← ho])
  have hkind : optional m "kind_filter" toStrings? = some args.kindFilter :=
    optional_orNull (by simp [hget,← ho])
  simp [ofJson,hfields,hsource,hkind]

end FilterArgs

def GetWindowArgs.ofJson (j : Json) : Option GetWindowArgs := do
  let o ← structFields ["start_ms","end_ms","source_filter","kind_filter","limit","cursor"] 2 true j
  let startMs ← required o "start_ms" toInt64?
  let endMs ← required o "end_ms" toInt64?
  let sourceFilter ← optional o "source_filter" toStrings?
  let kindFilter ← optional o "kind_filter" toStrings?
  let limit ← optional o "limit" toUInt32?
  let cursor ← optional o "cursor" toString?
  return ⟨startMs,endMs,sourceFilter,kindFilter,limit,cursor⟩

def TimeRange.ofJson (j : Json) : Option TimeRange := do
  let o ← structFields ["start_ms","end_ms"] 2 true j
  let startMs ← required o "start_ms" toInt64?
  let endMs ← required o "end_ms" toInt64?
  return ⟨startMs,endMs⟩

def SearchEventsArgs.ofJson (j : Json) : Option SearchEventsArgs := do
  let o ← structFields ["query","time_range","source_filter","kind_filter","limit"] 1 true j
  let query ← required o "query" toString?
  let timeRange ← optional o "time_range" TimeRange.ofJson
  let sourceFilter ← optional o "source_filter" toStrings?
  let kindFilter ← optional o "kind_filter" toStrings?
  let limit ← optional o "limit" toUInt32?
  return ⟨query,timeRange,sourceFilter,kindFilter,limit⟩

end Percept
