import Percept.McpFederation

/-! A client of the endpoint that pages through `get_window`: it sends the cursor of the last reply with
the same arguments, and the stores are written between its requests. -/
namespace Percept

open Json

/-- The arguments as a client sends them. -/
def GetWindowArgs.toValue (args : GetWindowArgs) : Json :=
  ofFields ([("start_ms",.ofInt64 args.startMs),("end_ms",.ofInt64 args.endMs)] ++
    (optionalField "source_filter" (args.sourceFilter.map ofStrings) ++
    (optionalField "kind_filter" (args.kindFilter.map ofStrings) ++
    (optionalField "limit" (args.limit.map fun n => ofUInt64 n.toUInt64) ++
    optionalField "cursor" (args.cursor.map .string)))))

theorem toUInt32?_toUInt64 (n : UInt32) : toUInt32? (ofUInt64 n.toUInt64) = some n := by
  have hlt : n.toUInt64.toNat < 2^32 := by
    rw [UInt32.toNat_toUInt64]
    exact n.toNat_lt
  rw [ofUInt64,toUInt32?,if_pos hlt,UInt32.toUInt32_toUInt64]

theorem GetWindowArgs.ofJson_toValue (args : GetWindowArgs) : ofJson args.toValue = some args := by
  unfold toValue
  generalize ho : [("start_ms",Json.ofInt64 args.startMs),("end_ms",.ofInt64 args.endMs)] ++ _ = o
  obtain ⟨m,hfields,hget⟩ := structFields_ofFields (by decide) 2 true (show (o.map Prod.fst).Sublist
      ["start_ms","end_ms","source_filter","kind_filter","limit","cursor"] by
    simp only [← ho,List.map_append]
    exact (List.Sublist.refl ["start_ms","end_ms"]).append ((keys_optionalField _ _).append
      ((keys_optionalField _ _).append ((keys_optionalField _ _).append (keys_optionalField _ _)))))
  have hstart : Json.required m "start_ms" toInt64? = some args.startMs := by
    simp [Json.required,hget,← ho]
  have hend : Json.required m "end_ms" toInt64? = some args.endMs := by
    simp [Json.required,hget,← ho]
  have hsource : Json.optional m "source_filter" toStrings? = some args.sourceFilter :=
    optional_map ofStrings (by simp [hget,← ho]) toStrings?_ofStrings (by simp [ofStrings])
  have hkind : Json.optional m "kind_filter" toStrings? = some args.kindFilter :=
    optional_map ofStrings (by simp [hget,← ho]) toStrings?_ofStrings (by simp [ofStrings])
  have hlimit : Json.optional m "limit" toUInt32? = some args.limit :=
    optional_map _ (by simp [hget,← ho]) toUInt32?_toUInt64 (by simp [ofUInt64])
  have hcursor : Json.optional m "cursor" toString? = some args.cursor :=
    optional_map .string (by simp [hget,← ho]) (fun _ => rfl) (by simp)
  simp [ofJson,hfields,hstart,hend,hsource,hkind,hlimit,hcursor]

/-- A window as a client reads it. -/
def GetWindowOut.ofJson (ulid : UlidText) (j : Json) : Option GetWindowOut := do
  let o ← structFields ["events","cursor"] 2 false j
  let events ← required o "events" fun v => v.toArray?.bind fun a => a.mapM (Event.ofJson ulid)
  let cursor ← optional o "cursor" toString?
  return ⟨events,cursor⟩

theorem GetWindowOut.ofJson_toValue {ulid : UlidText} (hulid : ulid.RoundTrips) (out : GetWindowOut) :
    ofJson ulid (out.toValue ulid) = some out := by
  unfold toValue
  generalize ho : [("events",Json.array (out.events.map (Event.toValue ulid))),_] = o
  obtain ⟨m,hfields,hget⟩ := structFields_ofFields (by decide) 2 false
    (show (o.map Prod.fst).Sublist ["events","cursor"] by simp [← ho])
  have hevents : Json.required m "events" (fun v => v.toArray?.bind fun a => a.mapM (Event.ofJson ulid)) =
      some out.events := by
    simp [Json.required,hget,← ho,Json.toArray?,mapM_map_some (Event.ofJson_toValue hulid)]
  have hcursor : Json.optional m "cursor" toString? = some out.cursor := by
    cases hc : out.cursor with
    | none => simp [Json.optional,hget,← ho,hc,orNull]
    | some c =>
      rw [optional_some (v := .string c) (by simp [hget,← ho,hc,orNull]) (by simp)]
      rfl
  simp [ofJson,hfields,hevents,hcursor]

/-- What a client makes of a reply. -/
def PeerReply.window (ulid : UlidText) (reply : PeerReply) : Except String GetWindowOut :=
  match reply.callTool with
  | (.error message,_) => .error message
  | (.timeout,_) => .error "timeout"
  | (.ok,v) => match v.bind (GetWindowOut.ofJson ulid) with
    | some out => .ok out
    | none => .error "no window"

/-- The window that a client reads of what was sent back, if anything was. -/
def readWindow (ulid : UlidText) (reply : Option McpReply) : Except String GetWindowOut :=
  ((reply.map McpReply.toPeerReply).getD .elapsed).window ulid

/-- `follow`, by requests to an endpoint. The endpoint may answer each request in a state of its own, as
long as its cold store is the one of the schedule; the requests that are left number these states. -/
def followMcp (ulid : UlidText) (request : Option String → Json)
    (serve : ℕ → Stores → Json → Option McpReply) :
    List (List StoreOp) → Option String → Stores → Except String (List (List Event) × Option String)
  | [], cursor, st => (readWindow ulid (serve 0 st (request cursor))).map fun out => ([out.events],out.cursor)
  | ops::schedule, cursor, st => match readWindow ulid (serve (schedule.length+1) st (request cursor)) with
    | .error e => .error e
    | .ok ⟨events,none⟩ => .ok ([events],none)
    | .ok ⟨events,some c⟩ => (followMcp ulid request serve schedule (some c) (st.run ops)).map fun rest =>
      (events::rest.1,rest.2)

/-- The text in which a client is told of an error of a tool. -/
def ToolError.onWire (e : ToolError) : String := (invalidParams e.text).toText

/-- What a client reads of a walk. -/
def Followed.onWire (walk : Except ToolError Followed) : Except String (List (List Event) × Option String) :=
  (walk.map fun w => (w.pages,w.cursor)).mapError ToolError.onWire

section

/-- The client reads the window, or the text of the error. -/
theorem window_reply {ulid : UlidText} (hulid : ulid.RoundTrips) (id : Option Json)
    (r : Except ToolError GetWindowOut) :
    readWindow ulid (some (.ok ⟨id,toolPayload (r.map (GetWindowOut.toValue ulid))⟩)) =
      r.mapError ToolError.onWire := by
  cases r with
  | error e =>
    have herror := response_error id (.invalidParams e.text)
    simp only [readWindow,Option.map_some,Option.getD_some,McpReply.toPeerReply,PeerReply.window,
      PeerReply.callTool,Except.map,toolPayload,herror,toValue_invalidParams]
    rfl
  | ok out =>
    obtain ⟨hnone,hresult⟩ := response_result id (structuredResult (out.toValue ulid))
    simp only [readWindow,Option.map_some,Option.getD_some,McpReply.toPeerReply,PeerReply.window,
      PeerReply.callTool,Except.map,toolPayload,hnone,hresult,Option.bind_some,structuredResult_member,
      GetWindowOut.ofJson_toValue hulid]
    rfl

variable {S : Type} [LinearOrder S] {libs : McpLibs S} {args : GetWindowArgs} {authorization : Option String}

/-- A request for a window is answered from the cold store. -/
theorem handle_getWindow (hulid : libs.ulid.RoundTrips) {s : McpState} {store : ColdStore} (ask : Ask)
    (hcold : s.live.cold = some store) (hauth : s.site.authenticate authorization = .ok ()) {body : Json}
    {id : Option Json} (h : Calls "get_window" GetWindowArgs.ofJson body id args) :
    readWindow libs.ulid ((handle libs s ask authorization (.ok body)).map Prod.fst) =
      (getWindow libs.cursor (some store) args).mapError ToolError.onWire := by
  obtain ⟨params,arguments,hreq,hcall,hargs⟩ := h.reads
  have hdescribe : "get_window" ≠ "describe_sources" := by decide
  have hstate : "get_window" ≠ "get_current_state" := by decide
  rw [handle_call libs hauth hreq]
  simp only [dispatchCall,hcall,if_neg hdescribe,if_neg hstate,if_true,callParsed,hargs,getWindowTool,hcold,
    Option.map_some]
  exact window_reply hulid id _

/-- Paging through the endpoint is paging through the cold store: the client reads the pages and the
cursor of the walk, or the error at which the walk ends. -/
theorem followMcp_refines_follow (hulid : libs.ulid.RoundTrips) {request : Option String → Json}
    (hrequest : ∀ cursor, ∃ id, Calls "get_window" GetWindowArgs.ofJson (request cursor) id
      { args with cursor })
    {node : ℕ → Stores → McpState} (hcold : ∀ n st, (node n st).live.cold = some st.cold)
    (hauth : ∀ n st, (node n st).site.authenticate authorization = .ok ()) (ask : Ask)
    (schedule : List (List StoreOp)) (cursor : Option String) (st : Stores) :
    followMcp libs.ulid request
        (fun n st body => (handle libs (node n st) ask authorization (.ok body)).map Prod.fst)
        schedule cursor st =
      Followed.onWire (follow libs.cursor args schedule cursor st) := by
  induction schedule generalizing cursor st with
  | nil =>
    obtain ⟨id,hcalls⟩ := hrequest cursor
    rw [followMcp,handle_getWindow hulid ask (hcold 0 st) (hauth 0 st) hcalls]
    cases hcall : getWindow libs.cursor (some st.cold) { args with cursor } with
    | error e => simp only [follow,hcall]; rfl
    | ok out => simp only [follow,hcall]; rfl
  | cons ops schedule ih =>
    obtain ⟨id,hcalls⟩ := hrequest cursor
    rw [followMcp,handle_getWindow hulid ask (hcold (schedule.length+1) st) (hauth (schedule.length+1) st)
      hcalls]
    cases hcall : getWindow libs.cursor (some st.cold) { args with cursor } with
    | error e => simp only [follow,hcall]; rfl
    | ok out =>
      obtain ⟨events,next⟩ := out
      cases next with
      | none =>
        rw [follow_stop hcall]
        rfl
      | some c =>
        have hrest := ih (some c) (st.run ops)
        simp only [Except.mapError,hrest]
        cases hwalk : follow libs.cursor args schedule (some c) (st.run ops) with
        | error e =>
          simp only [follow,hcall,hwalk]
          rfl
        | ok rest =>
          rw [follow_next hcall hwalk]
          rfl

/-- A node with nothing but its cold store. -/
def coldNode (st : Stores) : McpState := ⟨oneWaySite true,⟨.new,{},.new,some st.cold,0⟩,none,none⟩

def windowsOfTwo : GetWindowArgs := ⟨0,100,none,none,some 2,none⟩

def threeRows : Stores :=
  Stores.openInMemory.apply (.append [.required 2 "s" "k" 10 .null,.required 3 "s" "k" 5 .null,
    .required 1 "s" "k" 10 .null])

theorem followMcp_refines_follow_three_rows :
    followMcp plainLibs.ulid
        (fun c => toolCall "get_window" (GetWindowArgs.toValue { windowsOfTwo with cursor := c }))
        (fun _ st body => (handle plainLibs (coldNode st) (fun _ _ _ => none) (some "Bearer t")
          (.ok body)).map Prod.fst) [[],[]] none threeRows =
      Followed.onWire (follow plainLibs.cursor windowsOfTwo [[],[]] none threeRows) :=
  @followMcp_refines_follow ℕ _ plainLibs windowsOfTwo (some "Bearer t") crockfordText_roundTrips _
    (fun c => ⟨_,calls_toolCall "get_window" (GetWindowArgs.ofJson_toValue { windowsOfTwo with cursor := c })
      (by simp [GetWindowArgs.toValue,ofFields])⟩)
    (fun _ st => coldNode st) (fun _ _ => rfl)
    (fun _ _ => show (oneWaySite true).authenticate (some "Bearer t") = .ok () by decide) (fun _ _ _ => none)
    [[],[]] none threeRows

end

end Percept
