import Percept.CurrentState
import Percept.Http
import Percept.Lib.FanOut

/-! `describe_sources` and `get_current_state` across peers: a node answers from its own stores and
asks each of its peers with the same arguments, and each of these does the same in its turn. No
per-peer timeout fires here. -/
namespace Percept

structure PeerHandle where
  id : String
  mcpUrl : String
  token : String
  timeout : Duration

inductive PeerStatus
  | ok | timeout | error (message : String)
  deriving DecidableEq

/-- `Duration::from_millis`. -/
def Duration.fromMillis (n : UInt64) : Duration := ⟨n/1000,(n%1000*1000000).toUInt32⟩

/-- The loop body of `build_peers`. -/
def peerHandle (p : PeerEntry) : Except String PeerHandle :=
  match p.resolvedToken with
  | none => .error ("[peer \"" ++ p.id ++ "\"]: token not resolved")
  | some token => .ok ⟨p.id,p.mcpUrl,token,.fromMillis (p.timeoutMs.getD 1000)⟩

def buildPeers (cfg : List PeerEntry) : Except String (List PeerHandle) := cfg.mapM peerHandle

/-- What of `McpState` is fixed at startup. -/
structure Site where
  token : String
  rows : List ResolvedRow
  retentionPolicies : List RetentionPolicy
  peers : List PeerHandle

def Config.site (cfg : Config) (token : String) (policies : List RetentionPolicy) : Except String Site :=
  (buildPeers cfg.peers).map fun peers => ⟨token,cfg.resolveDescriptors,policies,peers⟩

/-- The bearer check of the MCP route. -/
def Site.authenticate (s : Site) (authorization : Option String) : Except String Unit :=
  match authorization.bind (stripPrefix "Bearer ") with
  | none => .error "missing bearer token"
  | some token => if token ≠ s.token then .error "unknown bearer token" else .ok ()

/-- What a node's stores hold when a call reaches it. -/
structure NodeStores where
  metrics : Metrics
  config : HotRingConfig
  hot : HotRings config
  cold : Option ColdStore
  nowMs : Int64

structure DescribeSourcesEntry where
  descriptor : ResolvedRow
  recentErrors : Option SourceErrors
  effectiveRetention : Option EffectiveRetention

/-- An error record is made with its first count, so one that is there is never empty. -/
def describeEntry (s : Site) (live : NodeStores) (d : ResolvedRow) : DescribeSourcesEntry :=
  let eff := resolveEffective s.retentionPolicies d.sourceId d.kind
  ⟨d,live.metrics.perSourceErrors d.sourceId,if eff.isEmpty then none else some eff⟩

/-- An entry with its `peer_id`, null for a local one. -/
structure Attributed (ε : Type) where
  entry : ε
  peerId : Option String

/-- The structured result; `peer_status` is left out when it is empty. -/
structure Answer (ε : Type) where
  rows : List (Attributed ε)
  peerStatus : String → Option PeerStatus

/-- What becomes of a request: no response, one that is not a success, or a node reads it with
this `Authorization` header. -/
inductive Sent (ι : Type)
  | failed (message : String) | status (text : String) | node (i : ι) (authorization : Option String)

/-- The HTTP client and the network, for a URL and a bearer token. -/
abbrev Network (ι : Type) := String → String → Sent ι

/-- `RpcError::invalid_params`. -/
def invalidParams (message : String) : Json :=
  .object [("code",.number (.negInt (-32602))),("message",.string message)]

section

variable {ι ε : Type} (net : Network ι) (site : ι → Site)

/-- What a node has computed so far, and the peer calls made for it. -/
abbrev Reply (α : Type) := Option α × ℕ

/-- `call_tool`: the status, and the structured result of a success. -/
def callTool (p : PeerHandle) (serve : ι → Reply (Except String (Answer ε))) :
    Reply (PeerStatus × Option (Answer ε)) :=
  match net p.mcpUrl p.token with
  | .failed message => (some (.error message,none),1)
  | .status text => (some (.error ("peer returned " ++ text),none),1)
  | .node j authorization => match (site j).authenticate authorization with
    | .error _ => (some (.error "peer returned 401 Unauthorized",none),1)
    | .ok () =>
      let (response,calls) := serve j
      (response.map fun
        | .error e => (.error (invalidParams e).toText,none)
        | .ok answer => (.ok,some answer),1+calls)

/-- The loop body after `join_all`. -/
def mergeReply (acc : Answer ε) (reply : String × PeerStatus × Option (Answer ε)) : Answer ε :=
  let (peerId,status,result) := reply
  { rows := acc.rows ++ match status,result with
      | .ok, some v => v.rows.map fun e => { e with peerId := some peerId }
      | _, _ => []
    peerStatus := Function.update acc.peerStatus peerId (some status) }

/-- `fan_out_describe_sources` and `fan_out_get_current_state`, which differ in the name of the tool:
all the replies have to be there before the first one is merged. -/
def fanOut (peers : List PeerHandle) (call : ℕ → PeerHandle → Reply (PeerStatus × Option (Answer ε)))
    (own : Answer ε) : Reply (Answer ε) :=
  let futures := peers.zipIdx.map fun (p,k) => (p.id,call k p)
  let results := futures.mapM fun (peerId,reply) => reply.1.map fun r => (peerId,r)
  (results.map fun results => results.foldl mergeReply own,(futures.map fun f => f.2.2).sum)

/-- A tool call at a node, followed through calls of peers up to a depth. The path numbers the peer
entries along which the call came. -/
def query (localRows : ι → List ℕ → Except String (List ε)) : ℕ → ι → List ℕ →
    Reply (Except String (Answer ε))
  | 0, _, _ => (none,0)
  | depth+1, i, path => match localRows i path with
    | .error e => (some (.error ("invalid glob: " ++ e)),0)
    | .ok rows =>
      let own : Answer ε := ⟨rows.map fun e => ⟨e,none⟩,fun _ => none⟩
      let (answer,calls) := fanOut (site i).peers
        (fun k p => callTool net site p fun j => query localRows depth j (path ++ [k])) own
      (answer.map .ok,calls)

variable (gs : Globset) (live : ι → List ℕ → NodeStores) (sourceFilter kindFilter : Option (List String))

def describeSources : ℕ → ι → List ℕ → Reply (Except String (Answer DescribeSourcesEntry)) :=
  query net site fun i path => (filterRows gs (site i).rows sourceFilter kindFilter).map
    (List.map (describeEntry (site i) (live i path)))

def getCurrentState : ℕ → ι → List ℕ → Reply (Except String (Answer CurrentStateEntry)) :=
  query net site fun i path => localStates gs (site i).rows (live i path).hot (live i path).cold
    (live i path).nowMs sourceFilter kindFilter

/-- The node that accepts a peer entry's call, if one does. -/
def acceptedBy (p : PeerHandle) : Option ι :=
  match net p.mcpUrl p.token with
  | .node j authorization => match (site j).authenticate authorization with
    | .ok () => some j
    | .error _ => none
  | _ => none

/-- A peer entry of `i` leads to `j`, which accepts its token. -/
def Peered (i j : ι) : Prop := ∃ p ∈ (site i).peers, acceptedBy net site p = some j

/-- From `i` the calls come to a node that is, over one or more calls, asked by itself. -/
def ReachesCycle (i : ι) : Prop :=
  ∃ j, Relation.ReflTransGen (Peered net site) i j ∧ Relation.TransGen (Peered net site) j j

end

namespace Reply

variable {α : Type} (run : ℕ → Reply α)

/-- The call comes back, at some depth of the recursion. -/
def Returns : Prop := ∃ depth, (run depth).1.isSome = true

def FinitelyManyCalls : Prop := ∃ bound, ∀ depth, (run depth).2 ≤ bound

end Reply

section

variable {ι ε : Type} {net : Network ι} {site : ι → Site}

/-- A call comes back when the peer that takes it answers, and it is counted with the calls of
that peer. -/
theorem callTool_spec (p : PeerHandle) (serve : ι → Reply (Except String (Answer ε))) :
    ((callTool net site p serve).1.isSome =
      (acceptedBy net site p).all fun j => (serve j).1.isSome) ∧
    (callTool net site p serve).2 = 1+((acceptedBy net site p).map fun j => (serve j).2).getD 0 := by
  unfold callTool acceptedBy
  cases net p.mcpUrl p.token with
  | failed message => exact ⟨rfl,rfl⟩
  | status text => exact ⟨rfl,rfl⟩
  | node j authorization =>
    cases h : (site j).authenticate authorization with
    | error e =>
      simp only [h]
      exact ⟨rfl,rfl⟩
    | ok u => simp only [h,Option.isSome_map,Option.all_some,Option.map_some,Option.getD_some,and_self]

theorem isSome_mapM {α β : Type} (f : α → Option β) (l : List α) :
    (l.mapM f).isSome = l.all fun a => (f a).isSome := by
  induction l with
  | nil => rfl
  | cons a l ih =>
    rw [List.mapM_cons,List.all_cons,← ih]
    cases f a with
    | none => rfl
    | some b => cases l.mapM f <;> rfl

variable {peers : List PeerHandle} {call : ℕ → PeerHandle → Reply (PeerStatus × Option (Answer ε))}

theorem fanOut_isSome {ready : PeerHandle → Bool} (h : ∀ k p, (call k p).1.isSome = ready p)
    (own : Answer ε) : (fanOut peers call own).1.isSome = peers.all ready := by
  simp only [fanOut,Option.isSome_map,isSome_mapM,List.all_map]
  conv_rhs => rw [← List.zipIdx_map_fst 0 peers,List.all_map]
  congr 1
  funext x
  simp [h]

theorem fanOut_calls {made : PeerHandle → ℕ} (h : ∀ k p, (call k p).2 = made p) (own : Answer ε) :
    (fanOut peers call own).2 = (peers.map made).sum := by
  simp only [fanOut,List.map_map]
  conv_rhs => rw [← List.zipIdx_map_fst 0 peers,List.map_map]
  congr 2
  funext x
  exact h x.2 x.1

/-- When the filters compile, a query has the shape of the recursive fan-out over the peer graph,
whatever the stores hold. -/
theorem query_shape {localRows : ι → List ℕ → Except String (List ε)}
    (hok : ∀ i path, ∃ rows, localRows i path = .ok rows) (depth : ℕ) (i : ι) (path : List ℕ) :
    (query net site localRows depth i path).1.isSome =
        FanOut.answers (fun i => (site i).peers) (acceptedBy net site) depth i ∧
      (query net site localRows depth i path).2 =
        FanOut.count (fun i => (site i).peers) (acceptedBy net site) depth i := by
  induction depth generalizing i path with
  | zero => exact ⟨rfl,rfl⟩
  | succ depth ih =>
    obtain ⟨rows,hrows⟩ := hok i path
    simp only [query,hrows,Option.isSome_map]
    constructor
    · refine fanOut_isSome (fun k p => ?_) _
      rw [(callTool_spec _ _).1]
      simp only [(ih _ _).1]
    · refine fanOut_calls (fun k p => ?_) _
      rw [(callTool_spec _ _).2]
      simp only [(ih _ _).2]

theorem mapM_of_forall {α β : Type} {f g : α → Option β} (h : ∀ a b, f a = some b → g a = some b)
    {l : List α} {r : List β} (hr : l.mapM f = some r) : l.mapM g = some r := by
  induction l generalizing r with
  | nil => exact hr
  | cons a l ih =>
    rw [List.mapM_cons] at hr ⊢
    obtain ⟨b,hb,hr⟩ := Option.bind_eq_some_iff.mp hr
    obtain ⟨rest,hrest,hr⟩ := Option.bind_eq_some_iff.mp hr
    rw [h a b hb,ih hrest]
    exact hr

theorem callTool_of_serve {serve deeper : ι → Reply (Except String (Answer ε))}
    (h : ∀ j r, (serve j).1 = some r → (deeper j).1 = some r) {p : PeerHandle}
    {r : PeerStatus × Option (Answer ε)} (hr : (callTool net site p serve).1 = some r) :
    (callTool net site p deeper).1 = some r := by
  unfold callTool at hr ⊢
  cases hnet : net p.mcpUrl p.token with
  | failed message => simpa only [hnet] using hr
  | status text => simpa only [hnet] using hr
  | node j authorization =>
    cases hauth : (site j).authenticate authorization with
    | error e => simpa only [hnet,hauth] using hr
    | ok u =>
      simp only [hnet,hauth] at hr ⊢
      obtain ⟨response,hresponse,hr⟩ := Option.map_eq_some_iff.mp hr
      rw [h j response hresponse,← hr]
      rfl

theorem fanOut_of_call {deeper : ℕ → PeerHandle → Reply (PeerStatus × Option (Answer ε))}
    (h : ∀ k p r, (call k p).1 = some r → (deeper k p).1 = some r) {own answer : Answer ε}
    (hr : (fanOut peers call own).1 = some answer) : (fanOut peers deeper own).1 = some answer := by
  simp only [fanOut,List.mapM_map] at hr ⊢
  obtain ⟨results,hresults,hr⟩ := Option.map_eq_some_iff.mp hr
  rw [mapM_of_forall (fun x y hx => ?_) hresults,← hr]
  · rfl
  · obtain ⟨r,hr,hy⟩ := Option.map_eq_some_iff.mp hx
    exact Option.map_eq_some_iff.mpr ⟨r,h x.2 x.1 r hr,hy⟩

/-- A result is not revised when the recursion is followed further. -/
theorem query_succ {localRows : ι → List ℕ → Except String (List ε)} {depth : ℕ} {i : ι} {path : List ℕ}
    {r : Except String (Answer ε)} (hr : (query net site localRows depth i path).1 = some r) :
    (query net site localRows (depth+1) i path).1 = some r := by
  induction depth generalizing i path r with
  | zero => cases hr
  | succ depth ih =>
    rw [query] at hr ⊢
    cases hlocal : localRows i path with
    | error e => simpa only [hlocal] using hr
    | ok rows =>
      simp only [hlocal] at hr ⊢
      obtain ⟨answer,hanswer,hr⟩ := Option.map_eq_some_iff.mp hr
      have hdeeper := fanOut_of_call (fun k p reply => callTool_of_serve fun j r hj => ih hj) hanswer
      rw [hdeeper,← hr]
      rfl

variable [Finite ι]

/-- A call comes back exactly when it makes finitely many peer calls, and exactly when the nodes it
reaches have no cycle of peers. -/
theorem query_returns_iff {localRows : ι → List ℕ → Except String (List ε)}
    (hok : ∀ i path, ∃ rows, localRows i path = .ok rows) (i : ι) (path : List ℕ) :
    (Reply.Returns (query net site localRows · i path) ↔ ¬ReachesCycle net site i) ∧
      (Reply.FinitelyManyCalls (query net site localRows · i path) ↔ ¬ReachesCycle net site i) := by
  unfold ReachesCycle
  rw [← Relation.acc_flip_iff_no_cycle]
  constructor
  · simp only [Reply.Returns,(query_shape hok _ _ _).1]
    exact FanOut.exists_answers_iff
  · simp only [Reply.FinitelyManyCalls,(query_shape hok _ _ _).2]
    exact FanOut.bounded_count_iff

omit [Finite ι] in
theorem query_error (net : Network ι) (site : ι → Site) (localRows : ι → List ℕ → Except String (List ε))
    {i : ι} {path : List ℕ} {e : String} (h : localRows i path = .error e) :
    Reply.Returns (query net site localRows · i path) ∧
      Reply.FinitelyManyCalls (query net site localRows · i path) := by
  constructor
  · exact ⟨1,by simp only [query,h]; rfl⟩
  · refine ⟨0,fun depth => ?_⟩
    cases depth with
    | zero => exact le_refl 0
    | succ depth => simp only [query,h]; rfl

end

/-- Whether the filters compile does not depend on the rows of the node. -/
theorem filterRows_cases (gs : Globset) (sourceFilter kindFilter : Option (List String)) :
    (∃ e, ∀ rows, filterRows gs rows sourceFilter kindFilter = .error e) ∨
      ∀ rows, ∃ kept, filterRows gs rows sourceFilter kindFilter = .ok kept := by
  unfold filterRows
  cases gs.compile id sourceFilter with
  | error e => exact .inl ⟨e,fun rows => rfl⟩
  | ok src => cases gs.compile id kindFilter with
    | error e => exact .inl ⟨e,fun rows => rfl⟩
    | ok kind => exact .inr fun rows => ⟨_,rfl⟩

section

variable {ι ε : Type} [Finite ι]

/-- The same when the local rows are some view of the filtered ones: a filter that does not compile
fails at the first node already. -/
theorem query_filtered_iff (net : Network ι) (site : ι → Site) (gs : Globset)
    (sourceFilter kindFilter : Option (List String)) (view : ι → List ℕ → List ResolvedRow → List ε)
    (i : ι) (path : List ℕ) :
    (Reply.Returns (query net site (fun i path => (filterRows gs (site i).rows sourceFilter
          kindFilter).map (view i path)) · i path) ↔
        (∃ e, filterRows gs (site i).rows sourceFilter kindFilter = .error e) ∨ ¬ReachesCycle net site i) ∧
      (Reply.FinitelyManyCalls (query net site (fun i path => (filterRows gs (site i).rows sourceFilter
          kindFilter).map (view i path)) · i path) ↔
        (∃ e, filterRows gs (site i).rows sourceFilter kindFilter = .error e) ∨
          ¬ReachesCycle net site i) := by
  rcases filterRows_cases gs sourceFilter kindFilter with ⟨e,he⟩ | hok
  · have hlocal : (filterRows gs (site i).rows sourceFilter kindFilter).map (view i path) = .error e := by
      rw [he]
      rfl
    obtain ⟨hreturns,hcalls⟩ := query_error net site (fun i path => (filterRows gs (site i).rows
      sourceFilter kindFilter).map (view i path)) hlocal
    exact ⟨iff_of_true hreturns (.inl ⟨e,he _⟩),iff_of_true hcalls (.inl ⟨e,he _⟩)⟩
  · have hno : ¬∃ e, filterRows gs (site i).rows sourceFilter kindFilter = .error e := by
      rintro ⟨e,he⟩
      obtain ⟨kept,hkept⟩ := hok (site i).rows
      rw [hkept] at he
      cases he
    rw [or_iff_right hno]
    refine query_returns_iff (fun i path => ?_) i path
    obtain ⟨kept,hkept⟩ := hok (site i).rows
    exact ⟨view i path kept,by rw [hkept]; rfl⟩

/-- Nothing stops a query that comes back to a node it has been at: apart from filters that do not
compile, it ends exactly where the reached part of the peer graph has no cycle. -/
theorem federated_query_returns_iff (net : Network ι) (site : ι → Site) (gs : Globset)
    (live : ι → List ℕ → NodeStores) (sourceFilter kindFilter : Option (List String)) (i : ι) :
    ((Reply.Returns (describeSources net site gs live sourceFilter kindFilter · i []) ↔
        (∃ e, filterRows gs (site i).rows sourceFilter kindFilter = .error e) ∨ ¬ReachesCycle net site i) ∧
      (Reply.FinitelyManyCalls (describeSources net site gs live sourceFilter kindFilter · i []) ↔
        (∃ e, filterRows gs (site i).rows sourceFilter kindFilter = .error e) ∨
          ¬ReachesCycle net site i)) ∧
    ((Reply.Returns (getCurrentState net site gs live sourceFilter kindFilter · i []) ↔
        (∃ e, filterRows gs (site i).rows sourceFilter kindFilter = .error e) ∨ ¬ReachesCycle net site i) ∧
      (Reply.FinitelyManyCalls (getCurrentState net site gs live sourceFilter kindFilter · i []) ↔
        (∃ e, filterRows gs (site i).rows sourceFilter kindFilter = .error e) ∨
          ¬ReachesCycle net site i)) :=
  ⟨query_filtered_iff net site gs sourceFilter kindFilter _ i [],
    query_filtered_iff net site gs sourceFilter kindFilter _ i []⟩

end

/-- Two sites, each with the other one as its only peer. -/
def mutualConfig : Bool → Config
  | true => { peers := [{ id := "b", mcpUrl := "http://b:8080/mcp", resolvedToken := some "t" }] }
  | false => { peers := [{ id := "a", mcpUrl := "http://a:8080/mcp", resolvedToken := some "t" }] }

def mutualSite : Bool → Site
  | true => ⟨"t",[],[],[⟨"b","http://b:8080/mcp","t",.fromMillis 1000⟩]⟩
  | false => ⟨"t",[],[],[⟨"a","http://a:8080/mcp","t",.fromMillis 1000⟩]⟩

def twoNodes : Network Bool := fun url token =>
  if url = "http://a:8080/mcp" then .node true (some ("Bearer " ++ token))
  else if url = "http://b:8080/mcp" then .node false (some ("Bearer " ++ token))
  else .failed "error sending request"

/-- The same two sites with the peer entry of one of them only. -/
def oneWaySite : Bool → Site
  | true => mutualSite true
  | false => ⟨"t",[],[],[]⟩

def emptyStores : NodeStores := ⟨.new,{},.new,none,0⟩

theorem oneWay_not_reachesCycle : ¬ReachesCycle twoNodes oneWaySite true := by
  rintro ⟨j,-,hcycle⟩
  have hleaf : ∀ c, ¬Peered twoNodes oneWaySite false c := fun c ⟨_,hp,_⟩ => List.not_mem_nil hp
  obtain ⟨c,hstep,hback⟩ := Relation.TransGen.head'_iff.mp hcycle
  cases j with
  | false => exact hleaf c hstep
  | true =>
    obtain ⟨p,hp,hc⟩ := hstep
    obtain rfl := List.mem_singleton.mp hp
    obtain rfl : false = c := Option.some.inj ((show acceptedBy twoNodes oneWaySite _ = some false by
      decide).symm.trans hc)
    rcases Relation.ReflTransGen.cases_head hback with h | ⟨d,hd,-⟩
    · cases h
    · exact hleaf d hd

theorem federated_query_one_way :
    Reply.Returns (describeSources twoNodes oneWaySite literalGlobs (fun _ _ => emptyStores) none none ·
      true []) ∧
    Reply.FinitelyManyCalls (getCurrentState twoNodes oneWaySite literalGlobs (fun _ _ => emptyStores)
      none none · true []) := by
  obtain ⟨hdescribe,hstate⟩ := federated_query_returns_iff twoNodes oneWaySite literalGlobs
    (fun _ _ => emptyStores) none none true
  exact ⟨hdescribe.1.mpr (.inr oneWay_not_reachesCycle),hstate.2.mpr (.inr oneWay_not_reachesCycle)⟩

theorem mutual_peered (x : Bool) : Peered twoNodes mutualSite x !x := by
  cases x
  · exact ⟨_,List.mem_singleton_self _,by decide⟩
  · exact ⟨_,List.mem_singleton_self _,by decide⟩

theorem federated_query_fails :
    (∀ x, Config.load (mutualConfig x) [] = .ok (mutualConfig x) ∧
      (mutualConfig x).site "t" [] = .ok (mutualSite x)) ∧
    ∀ live, (¬Reply.Returns (describeSources twoNodes mutualSite literalGlobs live none none · true []) ∧
        ¬Reply.FinitelyManyCalls
          (describeSources twoNodes mutualSite literalGlobs live none none · true [])) ∧
      (¬Reply.Returns (getCurrentState twoNodes mutualSite literalGlobs live none none · true []) ∧
        ¬Reply.FinitelyManyCalls
          (getCurrentState twoNodes mutualSite literalGlobs live none none · true [])) := by
  have hcycle : ReachesCycle twoNodes mutualSite true :=
    ⟨true,.refl,.tail (.single (mutual_peered true)) (mutual_peered false)⟩
  have hno : ¬((∃ e, filterRows literalGlobs (mutualSite true).rows none none = .error e) ∨
      ¬ReachesCycle twoNodes mutualSite true) := by
    rintro (⟨e,he⟩ | h)
    · rw [filterRows_none] at he
      cases he
    · exact h hcycle
  constructor
  · intro x
    cases x <;> exact ⟨rfl,rfl⟩
  · intro live
    have hdescribe := query_filtered_iff twoNodes mutualSite literalGlobs none none
      (fun i path => List.map (describeEntry (mutualSite i) (live i path))) true []
    have hstate := query_filtered_iff twoNodes mutualSite literalGlobs none none
      (fun i path => List.filterMap (stateEntry (live i path).hot (live i path).cold (live i path).nowMs))
      true []
    exact ⟨⟨fun h => hno (hdescribe.1.mp h),fun h => hno (hdescribe.2.mp h)⟩,
      fun h => hno (hstate.1.mp h),fun h => hno (hstate.2.mp h)⟩

end Percept
