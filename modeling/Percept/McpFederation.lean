import Percept.CursorBinding
import Percept.Forwarder
import Percept.McpRouter
import Percept.SearchBest

/-! Nodes that answer JSON-RPC requests over HTTP and, for the federated tools, post such requests to
each other. What comes out of the bodies and headers is the query of the typed model. -/
namespace Percept

open Json

section

variable {ι ε S : Type} [LinearOrder S]

/-- What comes back for the request to a peer. -/
def peerReply (net : Network ι) (serve : ι → Option String → Json → Option McpReply) (p : PeerHandle)
    (request : Json) : Option PeerReply :=
  match net p.mcpUrl p.token with
  | .failed message => some (.failed message)
  | .status text => some (.status text)
  | .node j authorization => (serve j authorization request).map McpReply.toPeerReply

variable (libs : McpLibs S) (net : Network ι) (site : ι → Site) (live : ι → List ℕ → NodeStores)
  (vectorIndex : ι → List ℕ → Option VectorIndex) (embedder : ι → Option Embedder)

/-- A node's reply to a request body, through nested calls of peers up to a depth; with no depth left
there is only the bearer check. The path numbers the peer entries along which the request came. -/
def serve : ℕ → ι → List ℕ → Option String → Except String Json → Option McpReply
  | 0, i, _, authorization, _ => match (site i).authenticate authorization with
    | .error message => some (.unauthorized message)
    | .ok () => none
  | depth+1, i, path, authorization, body =>
    (handle libs ⟨site i,live i path,vectorIndex i path,embedder i⟩
      (fun k => peerReply net fun j authorization request =>
        serve depth j (path ++ [k]) authorization (.ok request)) authorization body).map Prod.fst

/-- A request for a tool whose arguments read as `args`. -/
structure Calls {α : Type} (tool : String) (parse : Json → Option α) (body : Json) (id : Option Json)
    (args : α) : Prop where
  reads : ∃ params arguments, RpcRequest.ofJson body = some ⟨"2.0",id,"tools/call",some params⟩ ∧
    CallParams.ofJson params = some ⟨tool,arguments⟩ ∧ parse (arguments.getD (.object [])) = some args

/-- The answer of the typed model as the tool's output. -/
def Answer.output (fields : ε → List (String × Json)) (a : Answer ε) : ToolOutput :=
  ⟨a.rows.map fun e => tagRow (orNull (e.peerId.map .string)) (.object (fields e.entry)),a.peerStatus⟩

/-- The payload of the response to a federated query. -/
def answered (member : String) (peers : List PeerHandle) (fields : ε → List (String × Json)) :
    Except String (Answer ε) → Except RpcError Json
  | .error e => .error (.invalidParams e)
  | .ok a => .ok (structuredResult ((a.output fields).toValue member peers))

/-- The rows that a merge takes from a structured result. -/
def rowsOf (member : String) (v : Json) : List Json := ((v.member member).bind asArray).getD []

/-- The merge of a peer's rows, without the JSON around them. -/
def mergeRows (acc : ToolOutput) (reply : String × PeerStatus × Option (List Json)) : ToolOutput :=
  let (peerId,status,rows) := reply
  { rows := acc.rows ++ match status,rows with
      | .ok, some rows => rows.map (tagRow (.string peerId))
      | _, _ => []
    peerStatus := Function.update acc.peerStatus peerId (some status) }

variable {member : String} {fields : ε → List (String × Json)} {peers : List PeerHandle}

theorem mergeResult_eq (acc : ToolOutput) (peerId : String) (status : PeerStatus) (result : Option Json) :
    mergeResult member acc (peerId,status,result) =
      mergeRows acc (peerId,status,result.map (rowsOf member)) := by
  cases status <;> cases result <;> rfl

theorem tagRow_tagRow (tag old : Json) (o : List (String × Json)) :
    tagRow tag (tagRow old (.object o)) = tagRow tag (.object o) := by
  simp only [tagRow,insert_insert]

theorem mergeReply_output (acc : Answer ε) (peerId : String) (status : PeerStatus)
    (result : Option (Answer ε)) :
    (mergeReply acc (peerId,status,result)).output fields =
      mergeRows (acc.output fields) (peerId,status,result.map fun a => (a.output fields).rows) := by
  have hretag : ∀ a : Answer ε, (a.rows.map fun e => tagRow (orNull ((some peerId).map Json.string))
      (.object (fields e.entry))) = (a.output fields).rows.map (tagRow (.string peerId)) := by
    intro a
    rw [Answer.output,List.map_map]
    refine List.map_congr_left fun e _ => ?_
    rw [Function.comp_apply,tagRow_tagRow]
    rfl
  cases status with
  | ok =>
    cases result with
    | none => simp [mergeReply,mergeRows,Answer.output]
    | some a =>
      have h := hretag a
      simp only [Answer.output,mergeReply,mergeRows,List.map_append,List.map_map,Option.map_some] at h ⊢
      rw [← h]
      rfl
  | timeout => simp [mergeReply,mergeRows,Answer.output]
  | error message => simp [mergeReply,mergeRows,Answer.output]

theorem mapM_map_option {α β γ : Type} (f : α → Option β) (g : β → γ) (l : List α) :
    (l.mapM f).map (List.map g) = l.mapM fun a => (f a).map g := by
  induction l with
  | nil => rfl
  | cons a l ih =>
    rw [List.mapM_cons,List.mapM_cons,← ih]
    cases f a with
    | none => rfl
    | some b => cases l.mapM f <;> rfl

theorem foldl_mergeResult (results : List (String × PeerStatus × Option Json)) (acc : ToolOutput) :
    results.foldl (mergeResult member) acc =
      (results.map fun r => (r.1,r.2.1,r.2.2.map (rowsOf member))).foldl mergeRows acc := by
  rw [List.foldl_map]
  exact List.foldl_ext _ _ _ fun acc r _ => mergeResult_eq acc r.1 r.2.1 r.2.2

theorem foldl_mergeReply (results : List (String × PeerStatus × Option (Answer ε))) (acc : Answer ε) :
    (results.foldl mergeReply acc).output fields =
      (results.map fun r => (r.1,r.2.1,r.2.2.map fun a => (a.output fields).rows)).foldl mergeRows
        (acc.output fields) := by
  induction results generalizing acc with
  | nil => rfl
  | cons r results ih =>
    rw [List.foldl_cons,ih,List.map_cons,List.foldl_cons]
    congr 1
    exact mergeReply_output acc r.1 r.2.1 r.2.2

/-- Replies that agree in status and rows merge to the same output. -/
theorem fanOutTool_eq {tool : String} {ask : Ask} {args : FilterArgs}
    {call : ℕ → PeerHandle → Reply (PeerStatus × Option (Answer ε))}
    (h : ∀ k p, (ask k p (toolCall tool args.payload)).map
        (fun r => (r.callTool.1,r.callTool.2.map (rowsOf member))) =
      (call k p).1.map fun r => (r.1,r.2.map fun a => (a.output fields).rows))
    {own : Answer ε} (hown : own.peerStatus = fun _ => none) :
    fanOutTool member tool peers ask args (own.output fields).rows =
      (fanOut peers call own).1.map (Answer.output fields) := by
  have hacc : (⟨(own.output fields).rows,fun _ => none⟩ : ToolOutput) = own.output fields := by
    rw [Answer.output,hown]
  have hreply : ∀ x : PeerHandle × ℕ,
      ((ask x.2 x.1 (toolCall tool args.payload)).map fun reply : PeerReply => (x.1.id,reply.callTool)).map
        (fun r => (r.1,r.2.1,r.2.2.map (rowsOf member))) =
      ((call x.2 x.1).1.map fun r => (x.1.id,r)).map
        fun r => (r.1,r.2.1,r.2.2.map fun a => (a.output fields).rows) := by
    intro x
    have hx := congrArg (Option.map fun r => (x.1.id,r)) (h x.2 x.1)
    simp only [Option.map_map] at hx ⊢
    exact hx
  unfold fanOutTool fanOut
  simp only [hacc,foldl_mergeResult,Option.map_map,Function.comp_def,foldl_mergeReply,List.mapM_map]
  have hmap := congrArg (Option.map fun results => results.foldl mergeRows (own.output fields))
    (congrArg (fun f => peers.zipIdx.mapM f) (funext hreply))
  rw [← mapM_map_option,← mapM_map_option,Option.map_map,Option.map_map] at hmap
  exact hmap

theorem toValue_invalidParams (e : String) : (RpcError.invalidParams e).toValue = invalidParams e := by
  have hlt : ¬ "message" < "code" := by decide
  have hne : "message" ≠ "code" := by decide
  simp only [RpcError.toValue,RpcError.invalidParams,ofFields,mapOf,List.foldl_cons,List.foldl_nil,Json.insert,
    if_neg hlt,if_neg hne]
  rfl

theorem nodup_response {name : String} (id : Option Json) (v : Json) (h : name ∉ ["jsonrpc","id"]) :
    ((("jsonrpc",Json.string "2.0")::(optionalField "id" id ++ [(name,v)])).map Prod.fst).Nodup := by
  simp only [List.mem_cons,List.not_mem_nil,or_false,not_or] at h
  cases id with
  | none => simp [optionalField,Ne.symm h.1]
  | some v => simp [optionalField,Ne.symm h.1,Ne.symm h.2]

theorem response_result (id : Option Json) (v : Json) :
    (RpcResponse.toValue ⟨id,.ok v⟩).member "error" = none ∧
      (RpcResponse.toValue ⟨id,.ok v⟩).member "result" = some v := by
  have hnd := nodup_response id v (show "result" ∉ _ by decide)
  constructor
  · exact (member_ofFields hnd _).trans (by simp)
  · exact (member_ofFields hnd _).trans (by simp)

theorem response_error (id : Option Json) (e : RpcError) :
    (RpcResponse.toValue ⟨id,.error e⟩).member "error" = some e.toValue := by
  have hnd := nodup_response id e.toValue (show "error" ∉ _ by decide)
  exact (member_ofFields hnd _).trans (by simp)

theorem structuredResult_member (v : Json) : (structuredResult v).member "structuredContent" = some v :=
  (member_ofFields (by simp) _).trans (by simp)

theorem rowsOf_toValue (hmember : member ≠ "peer_status") (out : ToolOutput) :
    rowsOf member (out.toValue member peers) = out.rows := by
  have hnd : (((member,Json.array out.rows)::(if peers.isEmpty then [] else
      [("peer_status",peerStatusValue peers out.peerStatus)])).map Prod.fst).Nodup := by
    split
    · simp
    · simpa using hmember
  rw [rowsOf,ToolOutput.toValue,member_ofFields hnd,get?_cons,if_pos rfl]
  rfl

/-- What `call_tool` makes of a response is what the typed model has. -/
theorem callTool_response (hmember : member ≠ "peer_status") (id : Option Json)
    (r : Except String (Answer ε)) :
    let reply := (McpReply.ok ⟨id,answered member peers fields r⟩).toPeerReply.callTool
    (reply.1,reply.2.map (rowsOf member)) = match r with
      | .error e => (.error (invalidParams e).toText,none)
      | .ok a => (.ok,some (a.output fields).rows) := by
  cases r with
  | error e =>
    have herror := response_error id (.invalidParams e)
    simp only [McpReply.toPeerReply,PeerReply.callTool,answered,herror,toValue_invalidParams,Option.map_none]
  | ok a =>
    obtain ⟨hnone,hresult⟩ := response_result id (structuredResult ((a.output fields).toValue member peers))
    simp only [McpReply.toPeerReply,PeerReply.callTool,answered,hnone,hresult,Option.bind_some,
      structuredResult_member,Option.map_some,rowsOf_toValue hmember]

variable {libs net site live vectorIndex embedder}

/-- A call of a tool is handled as the tool is. -/
theorem handle_call (libs : McpLibs S) {s : McpState} {ask : Ask} {authorization : Option String}
    {body : Json} {id : Option Json} {params : Json} (hauth : s.site.authenticate authorization = .ok ())
    (hreq : RpcRequest.ofJson body = some ⟨"2.0",id,"tools/call",some params⟩) :
    (handle libs s ask authorization (.ok body)).map Prod.fst =
      (dispatchCall libs s ask (some params)).map fun payload => .ok ⟨id,payload⟩ := by
  have hmethod : "tools/call" ≠ "initialize" ∧ "tools/call" ≠ "tools/list" := by decide
  simp only [handle,hauth,hreq,if_true,dispatch,if_neg hmethod.1,if_neg hmethod.2,Option.map_map]
  rfl

/-- The call of a peer that answers as the typed model does. -/
theorem peerReply_callTool (hmember : member ≠ "peer_status")
    {serveJson : ι → Option String → Json → Option McpReply} {request : Json}
    {serveTyped : ι → Reply (Except String (Answer ε))} {id : Option Json}
    (hdeny : ∀ j authorization message, (site j).authenticate authorization = .error message →
      serveJson j authorization request = some (.unauthorized message))
    (hok : ∀ j authorization, (site j).authenticate authorization = .ok () →
      serveJson j authorization request =
        (serveTyped j).1.map fun r => .ok ⟨id,answered member (site j).peers fields r⟩) (p : PeerHandle) :
    (peerReply net serveJson p request).map (fun r => (r.callTool.1,r.callTool.2.map (rowsOf member))) =
      (callTool net site p serveTyped).1.map fun r => (r.1,r.2.map fun a => (a.output fields).rows) := by
  unfold peerReply callTool
  cases net p.mcpUrl p.token with
  | failed message => rfl
  | status text => rfl
  | node j authorization =>
    cases hauth : (site j).authenticate authorization with
    | error message =>
      simp only [hdeny j authorization message hauth,hauth]
      rfl
    | ok u =>
      simp only [hok j authorization hauth,hauth,Option.map_map]
      congr 1
      funext r
      have h := @callTool_response ε member fields (site j).peers hmember id r
      simp only at h
      rw [Function.comp_apply,Function.comp_apply,h]
      cases r <;> rfl

/-- A node reads the tool and its arguments from the request of another one. -/
theorem calls_toolCall {α : Type} {parse : Json → Option α} {arguments : Json} {args : α} (tool : String)
    (hparse : parse arguments = some args) (hnull : arguments ≠ .null) :
    Calls tool parse (toolCall tool arguments) (some (.number (.posInt 1))) args := by
  refine ⟨ofFields [("name",.string tool),("arguments",arguments)],some arguments,?_,?_,hparse⟩
  · obtain ⟨m,hfields,hget⟩ := structFields_ofFields (by decide) 3 false
      (show (List.map Prod.fst [("jsonrpc",.string "2.0"),("id",.number (.posInt 1)),
        ("method",.string "tools/call"),
        ("params",ofFields [("name",.string tool),("arguments",arguments)])]).Sublist
          ["jsonrpc","id","method","params"] by simp)
    have hparams : optional m "params" some =
        some (some (ofFields [("name",.string tool),("arguments",arguments)])) := by
      simp [Json.optional,hget,ofFields]
    have hid : optional m "id" some = some (some (.number (.posInt 1))) := by
      simp [Json.optional,hget]
    have hjsonrpc : required m "jsonrpc" toString? = some "2.0" := by
      simp [required,hget,Json.toString?]
    have hmethod : required m "method" toString? = some "tools/call" := by
      simp [required,hget,Json.toString?]
    simp [RpcRequest.ofJson,toolCall,hfields,hparams,hid,hjsonrpc,hmethod]
  · obtain ⟨m,hfields,hget⟩ := structFields_ofFields (by decide) 1 false
      (show (List.map Prod.fst [("name",.string tool),("arguments",arguments)]).Sublist
        ["name","arguments"] by simp)
    have hname : required m "name" toString? = some tool := by
      simp [required,hget,Json.toString?]
    have harguments : optional m "arguments" some = some (some arguments) :=
      optional_some (by simp [hget]) hnull some
    simp [CallParams.ofJson,hfields,hname,harguments]

section Serve

variable (libs net site live vectorIndex embedder)

theorem serve_unauthorized (depth : ℕ) {i : ι} (path : List ℕ) {authorization : Option String}
    {message : String} (h : (site i).authenticate authorization = .error message)
    (body : Except String Json) :
    serve libs net site live vectorIndex embedder depth i path authorization body =
      some (.unauthorized message) := by
  cases depth with
  | zero => simp only [serve,h]
  | succ depth => simp only [serve,handle,h,Option.map_some]

/-- A federated tool whose peers answer as the typed model does answers as the typed model does. -/
theorem federatedTool_eq {tool : String} {localRows : ι → List ℕ → Except String (List ε)}
    (hmember : member ≠ "peer_status") {depth : ℕ} (i : ι) (path : List ℕ) {args : FilterArgs}
    (hpeers : ∀ j path authorization, (site j).authenticate authorization = .ok () →
      serve libs net site live vectorIndex embedder depth j path authorization
          (.ok (toolCall tool args.payload)) =
        (query net site localRows depth j path).1.map fun r =>
          .ok ⟨some (.number (.posInt 1)),answered member (site j).peers fields r⟩) :
    (federatedTool ⟨site i,live i path,vectorIndex i path,embedder i⟩
        (fun k => peerReply net fun j authorization request =>
          serve libs net site live vectorIndex embedder depth j (path ++ [k]) authorization (.ok request))
        member tool ((localRows i path).map (List.map fields)) args).map toolPayload =
      (query net site localRows (depth+1) i path).1.map (answered member (site i).peers fields) := by
  unfold federatedTool query
  cases hrows : localRows i path with
  | error e =>
    simp only [Except.map]
    rfl
  | ok rows =>
    have hown : ((⟨rows.map fun e => ⟨e,none⟩,fun _ => none⟩ : Answer ε).output fields).rows =
        (rows.map fields).map fun o => tagRow .null (.object o) := by
      rw [Answer.output,List.map_map,List.map_map]
      rfl
    have hask : ∀ k p, (peerReply net (fun j authorization request =>
          serve libs net site live vectorIndex embedder depth j (path ++ [k]) authorization (.ok request)) p
        (toolCall tool args.payload)).map (fun r => (r.callTool.1,r.callTool.2.map (rowsOf member))) =
        (callTool net site p fun j => query net site localRows depth j (path ++ [k])).1.map fun r =>
          (r.1,r.2.map fun a => (a.output fields).rows) := fun k p =>
      peerReply_callTool hmember
        (fun j _ _ h => serve_unauthorized libs net site live vectorIndex embedder depth (path ++ [k]) h _)
        (fun j authorization h => hpeers j (path ++ [k]) authorization h) p
    have hfan : fanOutTool member tool (site i).peers _ args (Answer.output fields
        ⟨rows.map fun e => ⟨e,none⟩,fun _ => none⟩).rows = _ := fanOutTool_eq hask rfl
    simp only [Except.map,← hown,hfan,Option.map_map]
    rfl

/-- A request is handled as its tool is. -/
theorem serve_succ {depth : ℕ} {i : ι} {path : List ℕ} {authorization : Option String} {body : Json}
    {id : Option Json} {params : Json} (hauth : (site i).authenticate authorization = .ok ())
    (hreq : RpcRequest.ofJson body = some ⟨"2.0",id,"tools/call",some params⟩) :
    serve libs net site live vectorIndex embedder (depth+1) i path authorization (.ok body) =
      (dispatchCall libs ⟨site i,live i path,vectorIndex i path,embedder i⟩
        (fun k => peerReply net fun j authorization request =>
          serve libs net site live vectorIndex embedder depth j (path ++ [k]) authorization (.ok request))
        (some params)).map fun payload => .ok ⟨id,payload⟩ :=
  handle_call libs hauth hreq

theorem map_map_rows {α β γ : Type} (rows : Except String (List α)) (f : α → β) (g : β → γ) :
    (rows.map (List.map f)).map (List.map g) = rows.map (List.map fun a => g (f a)) := by
  cases rows with
  | error e => rfl
  | ok rows => exact congrArg Except.ok List.map_map

/-- `describe_sources` over HTTP, at every node and through any depth of nested calls. -/
theorem serve_describeSources (args : FilterArgs) (depth : ℕ) {body : Json} {id : Option Json}
    (h : Calls "describe_sources" FilterArgs.ofJson body id args) (i : ι) (path : List ℕ) {authorization : Option String}
    (hauth : (site i).authenticate authorization = .ok ()) :
    serve libs net site live vectorIndex embedder depth i path authorization (.ok body) =
      (describeSources net site libs.globset live args.sourceFilter args.kindFilter depth i path).1.map fun r =>
        .ok ⟨id,answered "sources" (site i).peers DescribeSourcesEntry.fields r⟩ := by
  induction depth generalizing i path authorization body id with
  | zero => simp only [serve,hauth,describeSources,query,Option.map_none]
  | succ depth ih =>
    obtain ⟨params,arguments,hreq,hcall,hargs⟩ := h.reads
    have htool := federatedTool_eq libs net site live vectorIndex embedder
      (show "sources" ≠ "peer_status" by decide) i path
      fun j path _ h => ih (calls_toolCall "describe_sources" args.ofJson_payload (by simp [FilterArgs.payload,ofFields])) j path h
    rw [serve_succ libs net site live vectorIndex embedder hauth hreq]
    simp only [dispatchCall,hcall,if_true,callParsed,hargs,describeSourcesTool]
    rw [← map_map_rows _ (describeEntry (site i) (live i path)),htool,Option.map_map]
    rfl

/-- `get_current_state` over HTTP. -/
theorem serve_getCurrentState (args : FilterArgs) (depth : ℕ) {body : Json} {id : Option Json}
    (h : Calls "get_current_state" FilterArgs.ofJson body id args) (i : ι) (path : List ℕ) {authorization : Option String}
    (hauth : (site i).authenticate authorization = .ok ()) :
    serve libs net site live vectorIndex embedder depth i path authorization (.ok body) =
      (getCurrentState net site libs.globset live args.sourceFilter args.kindFilter depth i path).1.map fun r =>
        .ok ⟨id,answered "states" (site i).peers (CurrentStateEntry.fields libs.ulid) r⟩ := by
  induction depth generalizing i path authorization body id with
  | zero => simp only [serve,hauth,getCurrentState,query,Option.map_none]
  | succ depth ih =>
    obtain ⟨params,arguments,hreq,hcall,hargs⟩ := h.reads
    have hname : "get_current_state" ≠ "describe_sources" := by decide
    have htool := federatedTool_eq libs net site live vectorIndex embedder
      (show "states" ≠ "peer_status" by decide) i path
      fun j path _ h => ih (calls_toolCall "get_current_state" args.ofJson_payload (by simp [FilterArgs.payload,ofFields])) j path h
    rw [serve_succ libs net site live vectorIndex embedder hauth hreq]
    simp only [dispatchCall,hcall,if_neg hname,if_true,callParsed,hargs,getCurrentStateTool]
    rw [htool,Option.map_map]
    rfl

end Serve

end

/-- Libraries for runs without globs. -/
def plainLibs : McpLibs ℕ where
  globset := literalGlobs
  cursor := fixedWidthCodec
  ulid := crockfordText
  cosine := firstComponent
  score := fun n => .number (.posInt (.ofNat n))
  serdeError := fun type _ => "invalid " ++ type

end Percept
