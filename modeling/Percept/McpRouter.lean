import Percept.GetWindow
import Percept.JsonForms
import Percept.ToolSchemas

/-! `POST /mcp`: the bearer check, the JSON-RPC envelope, the methods, and the four tools with their
arguments. The calls of peers are an argument; a call that has no result yet has none. -/
namespace Percept

open Json

/-- `RpcError`; `data` is never set. -/
structure RpcError where
  code : Int64
  message : String

namespace RpcError

def parseError (message : String) : RpcError := ⟨-32700,message⟩

def invalidRequest (message : String) : RpcError := ⟨-32600,message⟩

def methodNotFound (method : String) : RpcError := ⟨-32601,"method not found: " ++ method⟩

def invalidParams (message : String) : RpcError := ⟨-32602,message⟩

def toValue (e : RpcError) : Json := ofFields [("code",.ofInt64 e.code),("message",.string e.message)]

end RpcError

structure RpcRequest where
  jsonrpc : String
  id : Option Json
  method : String
  params : Option Json

def RpcRequest.ofJson (j : Json) : Option RpcRequest := do
  let o ← structFields ["jsonrpc","id","method","params"] 3 false j
  let jsonrpc ← required o "jsonrpc" toString?
  let id ← optional o "id" some
  let method ← required o "method" toString?
  let params ← optional o "params" some
  return ⟨jsonrpc,id,method,params⟩

structure RpcResponse where
  id : Option Json
  payload : Except RpcError Json

/-- The body, as the value that a reader parses. -/
def RpcResponse.toValue (r : RpcResponse) : Json :=
  ofFields (("jsonrpc",.string "2.0")::(optionalField "id" r.id ++ match r.payload with
    | .ok result => [("result",result)]
    | .error error => [("error",error.toValue)]))

structure CallParams where
  name : String
  arguments : Option Json

def CallParams.ofJson (j : Json) : Option CallParams := do
  let o ← structFields ["name","arguments"] 1 false j
  let name ← required o "name" toString?
  let arguments ← optional o "arguments" some
  return ⟨name,arguments⟩

/-- `CallResult::structured`. -/
def structuredResult (v : Json) : Json :=
  ofFields [("content",.array [ofFields [("type",.string "text"),("text",.string v.toText)]]),
    ("structuredContent",v),("isError",.bool false)]

def ColdError.text : ColdError → String
  | .sqlite message => message

def VectorError.text : VectorError → String
  | .decode message => "decoding stored vector blob: " ++ message

def ToolError.text : ToolError → String
  | .glob error => "invalid glob: " ++ error
  | .noColdStore => "cold store unavailable: configure [server].data_dir"
  | .noVectorIndex => "vector index unavailable: enable embedding via [storage].embed_default or " ++
      "per-kind / per-source `embed`"
  | .cold error => "cold store error: " ++ error.text
  | .vector error => "vector error: " ++ error.text
  | .invalidRange start stop => "invalid time range: end_ms (" ++ toString stop.toInt ++
      ") <= start_ms (" ++ toString start.toInt ++ ")"
  | .emptyQuery => "query string is empty"
  | .cursorFilterMismatch => "cursor_filter_mismatch"
  | .cursorMalformed => "cursor is malformed"

/-- The libraries that the endpoint calls: globs, cursors, ULIDs, the score of two vectors, and what
`serde_json` says of a value that is not of a type. -/
structure McpLibs (S : Type) where
  globset : Globset
  cursor : CursorCodec
  ulid : UlidText
  cosine : List UInt32 → List UInt32 → S
  score : S → Json
  serdeError : String → Json → String

/-- What a request is handled with: the node and its stores when the request comes in. -/
structure McpState where
  site : Site
  live : NodeStores
  vectorIndex : Option VectorIndex
  embedder : Option Embedder

/-- The request to a peer, by its place in the list, and what comes back for it. -/
abbrev Ask := ℕ → PeerHandle → Json → Option PeerReply

/-- The body that `call_tool` posts. -/
def toolCall (tool : String) (arguments : Json) : Json :=
  ofFields [("jsonrpc",.string "2.0"),("id",.number (.posInt 1)),("method",.string "tools/call"),
    ("params",ofFields [("name",.string tool),("arguments",arguments)])]

/-- `fan_out_describe_sources` and `fan_out_get_current_state`. -/
def fanOutTool (member tool : String) (peers : List PeerHandle) (ask : Ask) (args : FilterArgs)
    (rows : List Json) : Option ToolOutput :=
  let results : Option (List (String × PeerStatus × Option Json)) := peers.zipIdx.mapM fun (p,k) =>
    (ask k p (toolCall tool args.payload)).map fun reply : PeerReply => (p.id,reply.callTool)
  results.map fun results => results.foldl (mergeResult member) ⟨rows,fun _ => none⟩

section Tools

variable {S : Type} [LinearOrder S] (libs : McpLibs S) (s : McpState) (ask : Ask)

/-- A federated tool: the node's own rows, each with a null `peer_id`, and those of its peers. -/
def federatedTool (member tool : String) (own : Except String (List (List (String × Json))))
    (args : FilterArgs) : Option (Except ToolError Json) :=
  match own with
  | .error e => some (.error (.glob e))
  | .ok rows =>
    (fanOutTool member tool s.site.peers ask args (rows.map fun o => tagRow .null (.object o))).map fun out =>
      .ok (out.toValue member s.site.peers)

def describeSourcesTool (args : DescribeSourcesArgs) : Option (Except ToolError Json) :=
  federatedTool s ask "sources" "describe_sources"
    ((filterRows libs.globset s.site.rows args.sourceFilter args.kindFilter).map
      (List.map fun d => (describeEntry s.site s.live d).fields)) args

def getCurrentStateTool (args : GetCurrentStateArgs) : Option (Except ToolError Json) :=
  federatedTool s ask "states" "get_current_state"
    ((localStates libs.globset s.site.rows s.live.hot s.live.cold s.live.nowMs args.sourceFilter
      args.kindFilter).map (List.map (CurrentStateEntry.fields libs.ulid))) args

def getWindowTool (args : GetWindowArgs) : Except ToolError Json :=
  (getWindow libs.cursor s.live.cold args).map (GetWindowOut.toValue libs.ulid)

def searchEventsTool (args : SearchEventsArgs) : Except ToolError Json :=
  (searchEvents libs.globset libs.cosine s.vectorIndex s.embedder s.live.cold args).map fun hits =>
    ofFields [("hits",.array (hits.map (SearchHitOut.toValue libs.ulid libs.score)))]

/-- The result of a tool, or its error as `invalid_params`. -/
def toolPayload : Except ToolError Json → Except RpcError Json
  | .ok v => .ok (structuredResult v)
  | .error e => .error (.invalidParams e.text)

/-- `from_value` of the arguments before the tool. -/
def callParsed {α : Type} (type : String) (parse : Json → Option α)
    (tool : α → Option (Except ToolError Json)) (arguments : Json) : Option (Except RpcError Json) :=
  match parse arguments with
  | none => some (.error (.invalidParams (libs.serdeError type arguments)))
  | some args => (tool args).map toolPayload

def dispatchCall (params : Option Json) : Option (Except RpcError Json) :=
  match params with
  | none => some (.error (.invalidParams "missing params"))
  | some params => match CallParams.ofJson params with
    | none => some (.error (.invalidParams (libs.serdeError "CallParams" params)))
    | some call =>
      let arguments := call.arguments.getD (.object [])
      if call.name = "describe_sources" then
        callParsed libs "DescribeSourcesArgs" FilterArgs.ofJson (describeSourcesTool libs s ask) arguments
      else if call.name = "get_current_state" then
        callParsed libs "GetCurrentStateArgs" FilterArgs.ofJson (getCurrentStateTool libs s ask) arguments
      else if call.name = "get_window" then
        callParsed libs "GetWindowArgs" GetWindowArgs.ofJson (fun args => some (getWindowTool libs s args))
          arguments
      else if call.name = "search_events" then
        callParsed libs "SearchEventsArgs" SearchEventsArgs.ofJson
          (fun args => some (searchEventsTool libs s args)) arguments
      else some (.error (.methodNotFound call.name))

/-- `initialize` answers the same to every client. -/
def initializeResult : Json :=
  ofFields [("protocolVersion",.string "2024-11-05"),
    ("capabilities",ofFields [("tools",ofFields [("listChanged",.bool false)])]),
    ("serverInfo",ofFields [("name",.string "percept"),("version",.string "0.1.0-alpha.1")])]

def toolsListResult : Json := ofFields [("tools",.array (tools.map Tool.toValue))]

def dispatch (req : RpcRequest) : Option RpcResponse :=
  if req.method = "initialize" then some ⟨req.id,.ok initializeResult⟩
  else if req.method = "tools/list" then some ⟨req.id,.ok toolsListResult⟩
  else if req.method = "tools/call" then (dispatchCall libs s ask req.params).map fun payload => ⟨req.id,payload⟩
  else if req.method = "notifications/initialized" ∨ req.method = "notifications/cancelled" then
    some ⟨req.id,.ok .null⟩
  else if req.method = "ping" then some ⟨req.id,.ok (.object [])⟩
  else some ⟨req.id,.error (.methodNotFound req.method)⟩

/-- What is sent back: status 401 with a text, or status 200 with a JSON-RPC response. -/
inductive McpReply
  | unauthorized (message : String) | ok (response : RpcResponse)

/-- The handler, and the method that `record_metrics` counts a call of. -/
def handle (authorization : Option String) (body : Except String Json) : Option (McpReply × Option String) :=
  match s.site.authenticate authorization with
  | .error message => some (.unauthorized message,none)
  | .ok () => match body with
    | .error e => some (.ok ⟨none,.error (.parseError ("invalid JSON-RPC envelope: " ++ e))⟩,none)
    | .ok j => match RpcRequest.ofJson j with
      | none => some (.ok ⟨none,.error (.parseError ("invalid JSON-RPC envelope: " ++
          libs.serdeError "Request" j))⟩,none)
      | some req =>
        if req.jsonrpc = "2.0" then (dispatch libs s ask req).map fun response => (.ok response,some req.method)
        else some (.ok ⟨req.id,.error (.invalidRequest "jsonrpc must be \"2.0\"")⟩,none)

end Tools

/-- How the reply looks to the node that posted the request. -/
def McpReply.toPeerReply : McpReply → PeerReply
  | .unauthorized _ => .status "401 Unauthorized"
  | .ok response => .envelope response.toValue

end Percept
