import Percept.Federation

/-! What a federated answer reports of each peer, for any reply to its request: the status that
`call_tool` decides, and the rows that the merge takes from the result. -/
namespace Percept

namespace Json

/-- `Value::get`; only an object has members. -/
def member (v : Json) (name : String) : Option Json :=
  match v with
  | .object o => get? o name
  | _ => none

/-- `Value::as_array`. -/
def asArray (v : Json) : Option (List Json) :=
  match v with
  | .array a => some a
  | _ => none

/-- `Map::insert`: the keys stay in order and a value under the key is replaced. -/
def insert (name : String) (v : Json) : List (String × Json) → List (String × Json)
  | [] => [(name,v)]
  | f::rest =>
    if name < f.1 then (name,v)::f::rest
    else if name = f.1 then (name,v)::rest
    else f::insert name v rest

theorem get?_insert (name : String) (v : Json) (o : List (String × Json)) :
    get? (insert name v o) name = some v := by
  induction o with
  | nil => simp [insert,get?]
  | cons f rest ih =>
    unfold insert
    split_ifs with hlt heq
    · simp [get?]
    · simp [get?]
    · have hne : decide (f.1 = name) = false := decide_eq_false (Ne.symm heq)
      rwa [get?,List.find?_cons,hne]

theorem get?_insert_of_ne {name other : String} (h : other ≠ name) (v : Json) (o : List (String × Json)) :
    get? (insert name v o) other = get? o other := by
  have hnew : decide (name = other) = false := decide_eq_false (Ne.symm h)
  induction o with
  | nil => simp [insert,get?,hnew]
  | cons f rest ih =>
    unfold insert
    split_ifs with hlt heq
    · rw [get?,List.find?_cons,hnew]
      rfl
    · have hold : decide (f.1 = other) = false := heq ▸ hnew
      rw [get?,get?,List.find?_cons,List.find?_cons,hnew,hold]
    · unfold get? at ih ⊢
      rw [List.find?_cons,List.find?_cons]
      cases decide (f.1 = other) with
      | true => rfl
      | false => exact ih

end Json

/-- What comes back for the request to a peer. -/
inductive PeerReply
  | failed (message : String) | elapsed | status (text : String) | unreadable (message : String)
  | envelope (v : Json)

/-- `call_tool` from the reply on: an envelope without an `error` is a success. -/
def PeerReply.callTool : PeerReply → PeerStatus × Option Json
  | .failed message => (.error message,none)
  | .elapsed => (.timeout,none)
  | .status text => (.error ("peer returned " ++ text),none)
  | .unreadable message => (.error message,none)
  | .envelope v => match v.member "error" with
    | some err => (.error err.toText,none)
    | none => (.ok,(v.member "result").bind fun r => r.member "structuredContent")

/-- Only an object can take a `peer_id`. -/
def tagRow (tag : Json) : Json → Json
  | .object o => .object (Json.insert "peer_id" tag o)
  | v => v

/-- The structured result of the tool. -/
structure ToolOutput where
  rows : List Json
  peerStatus : String → Option PeerStatus

/-- The loop body after `join_all`, for the member that holds the rows. -/
def mergeResult (member : String) (acc : ToolOutput) (reply : String × PeerStatus × Option Json) :
    ToolOutput :=
  let (peerId,status,result) := reply
  { rows := acc.rows ++ match status,result with
      | .ok, some v => (((v.member member).bind Json.asArray).getD []).map (tagRow (.string peerId))
      | _, _ => []
    peerStatus := Function.update acc.peerStatus peerId (some status) }

def fanOutRows (member : String) (peers : List PeerHandle) (reply : PeerHandle → PeerReply)
    (rows : List Json) : ToolOutput :=
  (peers.map fun p => (p.id,(reply p).callTool)).foldl (mergeResult member) ⟨rows,fun _ => none⟩

def fanOutDescribeSources : List PeerHandle → (PeerHandle → PeerReply) → List Json → ToolOutput :=
  fanOutRows "sources"

def fanOutGetCurrentState : List PeerHandle → (PeerHandle → PeerReply) → List Json → ToolOutput :=
  fanOutRows "states"

section Tools

variable (gs : Globset) (site : Site) (live : NodeStores) (reply : PeerHandle → PeerReply)
  (sourceFilter kindFilter : Option (List String))

/-- The tool; `fields` serializes an entry, which is an object. -/
def describeSourcesOutput (fields : DescribeSourcesEntry → List (String × Json)) :
    Except String ToolOutput :=
  (filterRows gs site.rows sourceFilter kindFilter).map fun rows =>
    let sources := rows.map fun d => tagRow .null (.object (fields (describeEntry site live d)))
    fanOutDescribeSources site.peers reply sources

def getCurrentStateOutput (fields : CurrentStateEntry → List (String × Json)) :
    Except String ToolOutput :=
  (localStates gs site.rows live.hot live.cold live.nowMs sourceFilter kindFilter).map fun entries =>
    let states := entries.map fun e => tagRow .null (.object (fields e))
    fanOutGetCurrentState site.peers reply states

end Tools

/-- The row with the tag, and otherwise as it was. -/
def Tagged (tag row tagged : Json) : Prop :=
  ∃ o o', row = .object o ∧ tagged = .object o' ∧ Json.get? o' "peer_id" = some tag ∧
    ∀ name ≠ "peer_id", Json.get? o' name = Json.get? o name

/-- The reply is an envelope with a tool result that has the rows. -/
def CarriesRows (member : String) (reply : PeerReply) (rows : List Json) : Prop :=
  ∃ v r content, reply = .envelope v ∧ v.member "result" = some r ∧
    r.member "structuredContent" = some content ∧ content.member member = some (.array rows)

/-- What the answer says of its rows and of the peers is so. -/
structure HonestReport (member : String) (peers : List PeerHandle) (reply : PeerHandle → PeerReply)
    (localRows : List Json) (out : ToolOutput) : Prop where
  reported : ∀ p ∈ peers, (out.peerStatus p.id).isSome
  ok : ∀ p ∈ peers, out.peerStatus p.id = some .ok → ∃ rows, CarriesRows member (reply p) rows
  rows : ∃ own part, out.rows = own ++ peers.flatMap part ∧ List.Forall₂ (Tagged .null) localRows own ∧
    ∀ p ∈ peers, (out.peerStatus p.id = some .ok → ∀ rows, CarriesRows member (reply p) rows →
        List.Forall₂ (Tagged (.string p.id)) rows (part p)) ∧
      (out.peerStatus p.id ≠ some .ok → part p = [])

/-- A success comes with a tool result whose rows are objects. -/
def CompleteSuccess (member : String) (reply : PeerReply) : Prop :=
  ∀ v, reply = .envelope v → v.member "error" = none →
    ∃ rows, CarriesRows member reply rows ∧ ∀ r ∈ rows, ∃ o, r = .object o

theorem tagged_object (tag : Json) (o : List (String × Json)) :
    Tagged tag (.object o) (tagRow tag (.object o)) :=
  ⟨o,_,rfl,rfl,Json.get?_insert _ _ _,fun _ hname => Json.get?_insert_of_ne hname _ _⟩

theorem forall₂_tagged {tag : Json} {rows : List Json} (h : ∀ r ∈ rows, ∃ o, r = .object o) :
    List.Forall₂ (Tagged tag) rows (rows.map (tagRow tag)) := by
  refine List.forall₂_map_right_iff.mpr (List.forall₂_same.mpr fun r hr => ?_)
  obtain ⟨o,rfl⟩ := h r hr
  exact tagged_object tag o

theorem objects_of_tagged {tag : Json} {rows tagged : List Json}
    (h : List.Forall₂ (Tagged tag) rows tagged) : ∀ r ∈ rows, ∃ o, r = .object o := by
  induction h with
  | nil => simp
  | cons hrow _ ih =>
    obtain ⟨o,_,ho,-⟩ := hrow
    exact List.forall_mem_cons.mpr ⟨⟨o,ho⟩,ih⟩

theorem CarriesRows.unique {member : String} {reply : PeerReply} {rows rows' : List Json}
    (h : CarriesRows member reply rows) (h' : CarriesRows member reply rows') : rows = rows' := by
  obtain ⟨v,r,content,rfl,hr,hcontent,hrows⟩ := h
  obtain ⟨v',r',content',hv,hr',hcontent',hrows'⟩ := h'
  obtain rfl := PeerReply.envelope.inj hv
  obtain rfl := Option.some.inj (hr.symm.trans hr')
  obtain rfl := Option.some.inj (hcontent.symm.trans hcontent')
  exact Json.array.inj (Option.some.inj (hrows.symm.trans hrows'))

theorem callTool_ok_iff {reply : PeerReply} : reply.callTool.1 = .ok ↔
    ∃ v, reply = .envelope v ∧ v.member "error" = none := by
  cases reply with
  | envelope v =>
    unfold PeerReply.callTool
    cases hmember : v.member "error" <;> simp [hmember]
  | _ => simp [PeerReply.callTool]

/-- What the merge takes from one peer. -/
def contribution (member : String) (p : PeerHandle) (reply : PeerReply) : List Json :=
  match reply.callTool with
  | (.ok,some v) => (((v.member member).bind Json.asArray).getD []).map (tagRow (.string p.id))
  | _ => []

theorem mergeResult_rows (member : String) (acc : ToolOutput) (p : PeerHandle) (reply : PeerReply) :
    (mergeResult member acc (p.id,reply.callTool)).rows = acc.rows ++ contribution member p reply := by
  unfold mergeResult contribution
  rcases reply.callTool with ⟨status,result⟩
  cases status <;> cases result <;> rfl

theorem contribution_of_ne {member : String} {p : PeerHandle} {reply : PeerReply}
    (h : reply.callTool.1 ≠ .ok) : contribution member p reply = [] := by
  unfold contribution
  split
  next heq => exact absurd (congrArg Prod.fst heq) h
  next => rfl

theorem contribution_of_carries {member : String} {p : PeerHandle} {reply : PeerReply} {rows : List Json}
    (hok : reply.callTool.1 = .ok) (h : CarriesRows member reply rows) :
    contribution member p reply = rows.map (tagRow (.string p.id)) := by
  obtain ⟨v,r,content,rfl,hr,hcontent,hrows⟩ := h
  obtain ⟨w,hw,herror⟩ := callTool_ok_iff.mp hok
  obtain rfl := PeerReply.envelope.inj hw
  have hcall : (PeerReply.envelope v).callTool = (.ok,some content) := by
    simp only [PeerReply.callTool,herror,hr,Option.bind_some,hcontent]
  simp only [contribution,hcall,hrows,Option.bind_some,Json.asArray,Option.getD_some]

/-- The rows of the peers follow in their order, and each id has its last status. -/
theorem fanOutRows_spec (member : String) (peers : List PeerHandle) (reply : PeerHandle → PeerReply)
    (rows : List Json) (hids : (peers.map (·.id)).Nodup) :
    (fanOutRows member peers reply rows).rows =
        rows ++ peers.flatMap (fun p => contribution member p (reply p)) ∧
      ∀ p ∈ peers, (fanOutRows member peers reply rows).peerStatus p.id = some (reply p).callTool.1 := by
  induction peers using List.reverseRecOn with
  | nil => simp [fanOutRows]
  | append_singleton peers p ih =>
    rw [List.map_append,List.map_singleton,List.nodup_append] at hids
    obtain ⟨hids,-,hdisjoint⟩ := hids
    obtain ⟨hrows,hstatus⟩ := ih hids
    have hstep : fanOutRows member (peers ++ [p]) reply rows =
        mergeResult member (fanOutRows member peers reply rows) (p.id,(reply p).callTool) := by
      simp only [fanOutRows,List.map_append,List.map_singleton,List.foldl_append,List.foldl_cons,
        List.foldl_nil]
    rw [hstep]
    constructor
    · rw [List.flatMap_append,List.flatMap_singleton,← List.append_assoc,← hrows,mergeResult_rows]
    · intro q hq
      rcases List.mem_append.mp hq with hq | hq
      · have hne : q.id ≠ p.id := hdisjoint _ (List.mem_map_of_mem hq) _ (List.mem_singleton_self _)
        exact (Function.update_of_ne hne _ _).trans (hstatus q hq)
      · obtain rfl := List.mem_singleton.mp hq
        exact Function.update_self _ _ _

section

variable {member : String} {peers : List PeerHandle} {reply : PeerHandle → PeerReply}
  {localRows : List Json}

/-- The report of a fan-out is honest exactly when every success is complete. -/
theorem honestReport_iff (hids : (peers.map (·.id)).Nodup) (hlocal : ∀ r ∈ localRows, ∃ o, r = .object o) :
    HonestReport member peers reply localRows
        (fanOutRows member peers reply (localRows.map (tagRow .null))) ↔
      ∀ p ∈ peers, CompleteSuccess member (reply p) := by
  obtain ⟨hrows,hstatus⟩ := fanOutRows_spec member peers reply (localRows.map (tagRow .null)) hids
  constructor
  · rintro h p hp v hv herror
    have hok : (fanOutRows member peers reply (localRows.map (tagRow .null))).peerStatus p.id = some .ok := by
      rw [hstatus p hp,callTool_ok_iff.mpr ⟨v,hv,herror⟩]
    obtain ⟨rows,hcarries⟩ := h.ok p hp hok
    obtain ⟨own,part,-,-,hpart⟩ := h.rows
    exact ⟨rows,hcarries,objects_of_tagged ((hpart p hp).1 hok rows hcarries)⟩
  · intro h
    have hsuccess : ∀ p ∈ peers, (reply p).callTool.1 = .ok →
        ∃ rows, CarriesRows member (reply p) rows ∧ ∀ r ∈ rows, ∃ o, r = .object o := by
      intro p hp hok
      obtain ⟨v,hv,herror⟩ := callTool_ok_iff.mp hok
      exact h p hp v hv herror
    refine ⟨fun p hp => by rw [hstatus p hp]; rfl,fun p hp hok => ?_,
      _,_,hrows,forall₂_tagged hlocal,fun p hp => ⟨fun hok rows hcarries => ?_,fun hne => ?_⟩⟩
    · rw [hstatus p hp] at hok
      obtain ⟨rows,hcarries,-⟩ := hsuccess p hp (Option.some.inj hok)
      exact ⟨rows,hcarries⟩
    · rw [hstatus p hp] at hok
      obtain ⟨rows',hcarries',hobjects⟩ := hsuccess p hp (Option.some.inj hok)
      obtain rfl := hcarries.unique hcarries'
      rw [contribution_of_carries (Option.some.inj hok) hcarries]
      exact forall₂_tagged hobjects
    · rw [hstatus p hp] at hne
      exact contribution_of_ne fun hok => hne (congrArg some hok)

end

section

variable {gs : Globset} {site : Site} {live : NodeStores} {sourceFilter kindFilter : Option (List String)}

/-- Both tools report their coverage honestly exactly when every peer whose envelope has no error
sent a tool result with the rows of the tool, each an object. -/
theorem peer_report_iff (hids : (site.peers.map (·.id)).Nodup) {rows : List ResolvedRow}
    (hrows : filterRows gs site.rows sourceFilter kindFilter = .ok rows)
    (reply : PeerHandle → PeerReply) :
    (∀ fields, ∃ out, describeSourcesOutput gs site live reply sourceFilter kindFilter fields = .ok out ∧
      (HonestReport "sources" site.peers reply
          (rows.map fun d => .object (fields (describeEntry site live d))) out ↔
        ∀ p ∈ site.peers, CompleteSuccess "sources" (reply p))) ∧
    ∀ fields, ∃ out, getCurrentStateOutput gs site live reply sourceFilter kindFilter fields = .ok out ∧
      (HonestReport "states" site.peers reply
          ((rows.filterMap (stateEntry live.hot live.cold live.nowMs)).map fun e => .object (fields e)) out ↔
        ∀ p ∈ site.peers, CompleteSuccess "states" (reply p)) := by
  have hobjects : ∀ {α : Type} (f : α → List (String × Json)) (l : List α),
      ∀ r ∈ l.map fun a => Json.object (f a), ∃ o, r = .object o := by
    intro α f l r hr
    obtain ⟨a,-,rfl⟩ := List.mem_map.mp hr
    exact ⟨f a,rfl⟩
  constructor
  · intro fields
    refine ⟨_,by rw [describeSourcesOutput,hrows]; rfl,?_⟩
    rw [← honestReport_iff hids (hobjects _ rows),List.map_map]
    rfl
  · intro fields
    refine ⟨_,by rw [getCurrentStateOutput,localStates,hrows]; rfl,?_⟩
    rw [← honestReport_iff hids (hobjects _ (rows.filterMap _)),List.map_map]
    rfl

end

/-- A hub with one peer and nothing of its own. -/
def hubSite : Site := ⟨"t",[],[],[⟨"a","http://a:8080/mcp","t",.fromMillis 1000⟩]⟩

/-- A response with this result. -/
def jsonRpc (result : Json) : PeerReply :=
  .envelope (.object [("id",.number (.posInt 1)),("jsonrpc",.string "2.0"),("result",result)])

def structured (member : String) (rows : List Json) : PeerReply :=
  jsonRpc (.object [("content",.array []),("isError",.bool false),
    ("structuredContent",.object [(member,.array rows)])])

/-- A peer with one row. -/
theorem peer_report_one_row : ∃ out,
    describeSourcesOutput literalGlobs hubSite emptyStores
        (fun _ => structured "sources" [.object [("source_id",.string "cam")]]) none none (fun _ => []) =
      .ok out ∧
    HonestReport "sources" hubSite.peers
      (fun _ => structured "sources" [.object [("source_id",.string "cam")]]) [] out := by
  obtain ⟨hdescribe,-⟩ := @peer_report_iff literalGlobs hubSite emptyStores none none (by decide) _
    (filterRows_none literalGlobs hubSite.rows)
    fun _ => structured "sources" [.object [("source_id",.string "cam")]]
  obtain ⟨out,hout,hreport⟩ := hdescribe fun _ => []
  refine ⟨out,hout,hreport.mpr fun p _ v hv _ => ⟨_,⟨_,_,_,rfl,rfl,rfl,rfl⟩,fun r hr => ?_⟩⟩
  exact ⟨_,List.mem_singleton.mp hr⟩

/-- A result without structured content is reported as a success without rows. -/
theorem peer_report_fails : ∃ out,
    describeSourcesOutput literalGlobs hubSite emptyStores
        (fun _ => jsonRpc (.object [("content",.array []),("isError",.bool true)])) none none (fun _ => []) =
      .ok out ∧ out.peerStatus "a" = some .ok ∧
    ¬HonestReport "sources" hubSite.peers
      (fun _ => jsonRpc (.object [("content",.array []),("isError",.bool true)])) [] out := by
  refine ⟨_,rfl,rfl,fun h => ?_⟩
  obtain ⟨rows,v,r,content,hv,hr,hcontent,-⟩ := h.ok _ (List.mem_singleton_self _) rfl
  obtain rfl := PeerReply.envelope.inj hv
  obtain rfl := Option.some.inj hr
  cases hcontent

end Percept
