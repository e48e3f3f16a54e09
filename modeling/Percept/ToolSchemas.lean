import Percept.JsonForms

/-! The tools as `tools/list` publishes them, with the JSON Schema of their arguments. -/
namespace Percept

open Json

def describeSourcesInputSchema : Json :=
  ofFields [("type",.string "object"),("additionalProperties",.bool false),
    ("properties",ofFields [
      ("source_filter",ofFields [("type",.string "array"),("items",ofFields [("type",.string "string")]),
        ("description",.string "Shell-style globs against source_id. Omit for all.")]),
      ("kind_filter",ofFields [("type",.string "array"),("items",ofFields [("type",.string "string")]),
        ("description",.string "Shell-style globs against kind. Omit for all.")])])]

def getCurrentStateInputSchema : Json :=
  ofFields [("type",.string "object"),("additionalProperties",.bool false),
    ("properties",ofFields [
      ("source_filter",ofFields [("type",.string "array"),("items",ofFields [("type",.string "string")])]),
      ("kind_filter",ofFields [("type",.string "array"),("items",ofFields [("type",.string "string")])])])]

def getWindowInputSchema : Json :=
  ofFields [("type",.string "object"),("additionalProperties",.bool false),
    ("required",.array [.string "start_ms",.string "end_ms"]),
    ("properties",ofFields [
      ("start_ms",ofFields [("type",.string "integer"),("description",.string "UTC ms, inclusive.")]),
      ("end_ms",ofFields [("type",.string "integer"),("description",.string "UTC ms, exclusive.")]),
      ("source_filter",ofFields [("type",.string "array"),("items",ofFields [("type",.string "string")])]),
      ("kind_filter",ofFields [("type",.string "array"),("items",ofFields [("type",.string "string")])]),
      ("limit",ofFields [("type",.string "integer"),("minimum",.number (.posInt 1)),
        ("maximum",.number (.posInt 10000))]),
      ("cursor",ofFields [("type",.string "string"),
        ("description",.string "Opaque cursor returned by a previous get_window call.")])])]

def searchEventsInputSchema : Json :=
  ofFields [("type",.string "object"),("additionalProperties",.bool false),
    ("required",.array [.string "query"]),
    ("properties",ofFields [
      ("query",ofFields [("type",.string "string"),
        ("description",.string "Free-text query to embed and ANN-search the vector index.")]),
      ("time_range",ofFields [("type",.string "object"),("additionalProperties",.bool false),
        ("required",.array [.string "start_ms",.string "end_ms"]),
        ("properties",ofFields [("start_ms",ofFields [("type",.string "integer")]),
          ("end_ms",ofFields [("type",.string "integer")])])]),
      ("source_filter",ofFields [("type",.string "array"),("items",ofFields [("type",.string "string")])]),
      ("kind_filter",ofFields [("type",.string "array"),("items",ofFields [("type",.string "string")])]),
      ("limit",ofFields [("type",.string "integer"),("minimum",.number (.posInt 1)),
        ("maximum",.number (.posInt 50)),
        ("description",.string "Top-k cap (default 10, hard max 50 per DESIGN §11.1).")])])]

structure Tool where
  name : String
  description : String
  inputSchema : Json

def Tool.toValue (t : Tool) : Json :=
  ofFields [("name",.string t.name),("description",.string t.description),("inputSchema",t.inputSchema)]

def tools : List Tool := [
  { name := "describe_sources"
    description := "What sensors are available, what they mean, and which are currently misbehaving. " ++
      "Returns merged Source+Kind descriptors plus a recent_errors digest per source."
    inputSchema := describeSourcesInputSchema },
  { name := "get_current_state"
    description := "Latest event per (source, kind) from the hot ring. Each entry carries age_ms and a " ++
      "stale flag derived from the descriptor's freshness_ttl_ms. Falls back to the cold store on a " ++
      "hot-ring miss; those rows are tagged from_cold = true."
    inputSchema := getCurrentStateInputSchema },
  { name := "get_window"
    description := "Time-range scan from the cold store. Paginated via an opaque cursor. Ordered by " ++
      "(ts_ms_utc, event_id) ascending. Per-call hard limit 10,000 events."
    inputSchema := getWindowInputSchema },
  { name := "search_events"
    description := "Semantic search via the vector index, with optional time / source / kind filters. " ++
      "Returns the top-k hits with similarity scores and the matching events. Requires the embedder " ++
      "to be configured (see [storage].embed_default and per-kind / per-source `embed`)."
    inputSchema := searchEventsInputSchema }]

end Percept
