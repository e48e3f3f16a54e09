import Percept.ArrivalOrder
import Percept.Globs

/-! The configured tokens, the scopes built from them, and what can be on the bus under them. -/
namespace Percept

inductive AuthError
  | invalidGlob (pattern source : String)
  | invalidRateLimit (s : String)
  deriving DecidableEq

inductive BuildAuthError
  | notResolved (name : String)
  | scope (name : String) (e : AuthError)
  deriving DecidableEq

/-- A `[[http_token]]` entry, with the token value as far as it was resolved. -/
structure HttpToken where
  name : String
  allowSourceIds : List String
  allowKinds : List String
  rateLimit : Option String
  resolvedToken : Option String

def buildGlobs (gs : Globset) (patterns : List String) : Except AuthError (String → Bool) := do
  patterns.forM fun p => match gs.glob p with
    | .error source => .error (.invalidGlob p source)
    | .ok () => .ok ()
  match gs.build patterns with
  | .error source => .error (.invalidGlob (",".intercalate patterns) source)
  | .ok set => .ok set

/-- `"N/s"`, `"N/m"` or `"N/h"`; the first `check` of a new limiter passes. -/
def parseRateLimit (s : String) : Except AuthError Limiter :=
  match splitOnce '/' s with
  | none => .error (.invalidRateLimit s)
  | some (n,unit) => match parseUnsigned 32 (trim n) with
    | none | some 0 => .error (.invalidRateLimit s)
    | some (_+1) =>
      if trim unit = ['s'] ∨ trim unit = ['m'] ∨ trim unit = ['h'] then .ok ⟨none⟩
      else .error (.invalidRateLimit s)

def TokenScope.build (gs : Globset) (name : String) (sourcePatterns kindPatterns : List String)
    (rateLimit : Option String) : Except AuthError TokenScope := do
  let sourceGlobs ← buildGlobs gs sourcePatterns
  let kindGlobs ← buildGlobs gs kindPatterns
  let limiter ← rateLimit.mapM parseRateLimit
  return ⟨name,sourceGlobs,kindGlobs,limiter⟩

def HttpToken.scope (gs : Globset) (t : HttpToken) : Except AuthError TokenScope :=
  TokenScope.build gs t.name t.allowSourceIds t.allowKinds t.rateLimit

/-- A scope inserted under the same token value takes the place of the earlier one. -/
def Auth.insert (auth : Auth) (tokenValue : String) (scope : TokenScope) : Auth :=
  ⟨Function.update auth.byToken tokenValue (some scope)⟩

/-- The loop body of `build_auth`. -/
def addToken (gs : Globset) (auth : Auth) (t : HttpToken) : Except BuildAuthError Auth :=
  match t.resolvedToken with
  | none => .error (.notResolved t.name)
  | some resolved => match t.scope gs with
    | .error e => .error (.scope t.name e)
    | .ok scope => .ok (auth.insert resolved scope)

def buildAuth (gs : Globset) (tokens : List HttpToken) : Except BuildAuthError Auth :=
  tokens.foldlM (addToken gs) ⟨fun _ => none⟩

/-- The entry whose scope a token value stands for: the last one that resolved to it. -/
def inForce (tokens : List HttpToken) (token : String) : Option HttpToken :=
  tokens.reverse.find? fun t => t.resolvedToken = some token

/-- A built set matches what one of its patterns matches. -/
def Globset.AnyMatches (gs : Globset) (isMatch : String → String → Bool) : Prop :=
  ∀ patterns set, gs.build patterns = .ok set → ∀ s, set s = true ↔ ∃ p ∈ patterns, isMatch p s = true

/-- A pattern of each list matches. -/
def HttpToken.Permits (isMatch : String → String → Bool) (t : HttpToken) (e : IngestEvent) : Prop :=
  (∃ p ∈ t.allowSourceIds, isMatch p e.sourceId = true) ∧ ∃ p ∈ t.allowKinds, isMatch p e.kind = true

section

variable {gs : Globset} {isMatch : String → String → Bool} {t : HttpToken} {scope : TokenScope}

theorem buildGlobs_ok {patterns : List String} {set : String → Bool}
    (h : buildGlobs gs patterns = .ok set) : gs.build patterns = .ok set := by
  obtain ⟨_,_,h⟩ := exists_of_bind h
  cases hset : gs.build patterns with
  | error e =>
    rw [hset] at h
    cases h
  | ok set' =>
    rw [hset] at h
    rw [Except.ok.inj h]

theorem scope_ok (h : t.scope gs = .ok scope) : scope.name = t.name ∧
    gs.build t.allowSourceIds = .ok scope.sourceGlobs ∧
    gs.build t.allowKinds = .ok scope.kindGlobs := by
  obtain ⟨sourceGlobs,hsource,h⟩ := exists_of_bind h
  obtain ⟨kindGlobs,hkind,h⟩ := exists_of_bind h
  obtain ⟨limiter,_,h⟩ := exists_of_bind h
  obtain rfl := Except.ok.inj h
  exact ⟨rfl,buildGlobs_ok hsource,buildGlobs_ok hkind⟩

theorem allows_iff (hgs : gs.AnyMatches isMatch) (h : t.scope gs = .ok scope) (e : IngestEvent) :
    scope.allows e.sourceId e.kind = true ↔ t.Permits isMatch e := by
  obtain ⟨_,hsource,hkind⟩ := scope_ok h
  rw [TokenScope.allows,Bool.and_eq_true,hgs _ _ hsource,hgs _ _ hkind]
  rfl

/-- A token value has the scope of the entry in force. -/
theorem byToken_buildAuth {tokens : List HttpToken} {auth : Auth}
    (h : buildAuth gs tokens = .ok auth) {token : String} (hscope : auth.byToken token = some scope) :
    ∃ t, inForce tokens token = some t ∧ t.scope gs = .ok scope := by
  induction tokens using List.reverseRecOn generalizing auth with
  | nil =>
    obtain rfl := Except.ok.inj h
    cases hscope
  | append_singleton tokens t ih =>
    rw [buildAuth,List.foldlM_append] at h
    obtain ⟨auth',hinit,h⟩ := exists_of_bind h
    rw [List.foldlM_cons] at h
    obtain ⟨auth'',hadd,h⟩ := exists_of_bind h
    obtain rfl := Except.ok.inj h
    unfold addToken at hadd
    split at hadd
    · cases hadd
    next resolved hresolved =>
      split at hadd
      · cases hadd
      next scope' hscope' =>
        obtain rfl := Except.ok.inj hadd
        by_cases htoken : token = resolved
        · subst htoken
          simp only [Auth.insert,Function.update_self,Option.some.injEq] at hscope
          subst hscope
          exact ⟨t,by simp [inForce,hresolved],hscope'⟩
        · simp only [Auth.insert,Function.update_of_ne htoken] at hscope
          obtain ⟨t',ht',hbuild⟩ := ih hinit hscope
          refine ⟨t',?_,hbuild⟩
          have hne : t.resolvedToken ≠ some token := by
            rw [hresolved]
            exact fun hsome => htoken (Option.some.inj hsome).symm
          simpa [inForce,hne] using ht'

theorem inForce_mem {tokens : List HttpToken} {token : String} (h : inForce tokens token = some t) :
    t ∈ tokens ∧ t.resolvedToken = some token :=
  ⟨List.mem_reverse.mp (List.mem_of_find?_eq_some h),by simpa using List.find?_some h⟩

end

namespace IngestSystem

variable {cfg : IngestConfig} {s s' : IngestSystem cfg} {a : IngestAction}

/-- An envelope of a batch is one of its events under the name of its scope. -/
theorem Ordered.mem_batch (h : s.Ordered) {x : Submission} (hx : x ∈ s.tx.sent) {i : ℕ}
    (hi : x.batch = some i) : ∃ b, s.batches[i]? = some b ∧ x.envelope ∈ b.events.map b.scope.envelope := by
  have hmem : x.envelope ∈ fromBatch i s.tx.sent :=
    List.mem_map.mpr ⟨x,List.mem_filter.mpr ⟨hx,by simp [hi]⟩,rfl⟩
  cases hb : s.batches[i]? with
  | none =>
    rw [h.unknown i (List.getElem?_eq_none_iff.mp hb)] at hmem
    cases hmem
  | some b =>
    rw [h.batch i b hb] at hmem
    exact ⟨b,rfl,List.map_subset _ (List.take_subset _ _) hmem⟩

/-- The payload has an event that the entry in force for the token does not permit. -/
def Denied (isMatch : String → String → Bool) (tokens : List HttpToken) (ulid : UlidText)
    (token : String) (body : Except String Json) : Prop :=
  ∃ t events, inForce tokens token = some t ∧ parsePayload ulid body = .ok events ∧
    ∃ e ∈ events, ¬t.Permits isMatch e

/-- A submission is an event of its batch under a configured token that permits all of it. -/
structure Permitted (isMatch : String → String → Bool) (tokens : List HttpToken) (x : Submission)
    (b : Batch cfg) (t : HttpToken) : Prop where
  configured : t ∈ tokens ∧ t.resolvedToken = some b.token
  inForce : inForce tokens b.token = some t
  tokenName : x.envelope.tokenName = some t.name
  event : x.envelope.event ∈ b.events
  batch : ∀ e ∈ b.events, t.Permits isMatch e
  nonempty : t.allowSourceIds ≠ [] ∧ t.allowKinds ≠ []

/-- Nothing of HTTP or WebSocket is on the bus outside the scope of its token, and a payload
with a denied event does not even start a sending loop. -/
structure TokensEnforced (isMatch : String → String → Bool) (tokens : List HttpToken)
    (s : IngestSystem cfg) : Prop where
  permitted : ∀ x ∈ s.tx.sent, ∀ i, x.batch = some i →
    ∃ b t, s.batches[i]? = some b ∧ Permitted isMatch tokens x b t
  http : ∀ authorization body nowMs rate,
    Denied isMatch tokens cfg.ulid (bearer authorization) body →
      let s' := s.step (.http authorization body nowMs rate)
      s'.batches = s.batches ∧ s'.tx = s.tx
  message : ∀ i x body nowMs rate, s.sessions[i]? = some x →
    Denied isMatch tokens cfg.ulid x.token body →
      let s' := s.step (.wsMessage i body nowMs rate)
      s'.batches = s.batches ∧ s'.tx = s.tx

variable {gs : Globset} {isMatch : String → String → Bool} {tokens : List HttpToken}

theorem Ordered.permitted (hgs : gs.AnyMatches isMatch) (hauth : buildAuth gs tokens = .ok cfg.auth)
    (h : s.Ordered) {x : Submission} (hx : x ∈ s.tx.sent) {i : ℕ} (hi : x.batch = some i) :
    ∃ b t, s.batches[i]? = some b ∧ Permitted isMatch tokens x b t := by
  obtain ⟨b,hb,hmem⟩ := h.mem_batch hx hi
  obtain ⟨e,he,henvelope⟩ := List.mem_map.mp hmem
  obtain ⟨limiter,hknown⟩ := b.known
  obtain ⟨t,ht,hscope⟩ := byToken_buildAuth hauth hknown
  have hpermits : ∀ e ∈ b.events, t.Permits isMatch e := fun e he =>
    (allows_iff hgs hscope e).mp (b.checked e he).1
  obtain ⟨⟨p,hp,_⟩,q,hq,_⟩ := hpermits e he
  refine ⟨b,t,hb,inForce_mem ht,ht,?_,?_,hpermits,List.ne_nil_of_mem hp,List.ne_nil_of_mem hq⟩
  · rw [← henvelope]
    exact congrArg some (scope_ok hscope).1
  · rw [← henvelope]
    exact he

/-- A scope whose checks a denied payload passed. -/
theorem Denied.elim (hgs : gs.AnyMatches isMatch) (hauth : buildAuth gs tokens = .ok cfg.auth)
    {token : String} {body : Except String Json} (hdenied : Denied isMatch tokens cfg.ulid token body)
    {scope : TokenScope} (hknown : cfg.auth.byToken token = some scope) {events : List IngestEvent}
    (hparse : parsePayload cfg.ulid body = .ok events)
    (hchecked : ∀ e ∈ events, scope.allows e.sourceId e.kind = true) : False := by
  obtain ⟨t,events',ht,hparse',e,he,hnot⟩ := hdenied
  obtain ⟨t',ht',hscope⟩ := byToken_buildAuth hauth hknown
  obtain rfl : t = t' := Option.some.inj (ht.symm.trans ht')
  obtain rfl : events = events' := Except.ok.inj (hparse.symm.trans hparse')
  exact hnot ((allows_iff hgs hscope e).mp (hchecked e he))

theorem http_denied (hgs : gs.AnyMatches isMatch) (hauth : buildAuth gs tokens = .ok cfg.auth)
    (s : IngestSystem cfg) {authorization : Option String} {body : Except String Json}
    (hdenied : Denied isMatch tokens cfg.ulid (bearer authorization) body) (nowMs : Int64)
    (rate : Option Duration) :
    (s.http authorization body nowMs rate).batches = s.batches ∧
      (s.http authorization body nowMs rate).tx = s.tx := by
  unfold http
  split
  · exact ⟨rfl,rfl⟩
  next scope hscope =>
    dsimp only
    split
    · exact ⟨rfl,rfl⟩
    next events haccept =>
      obtain ⟨hparse,hchecked⟩ := httpAdmit_ok haccept
      exact (hdenied.elim hgs hauth (byToken_bearer hscope) hparse fun e he => (hchecked e he).1).elim

theorem message_denied (hgs : gs.AnyMatches isMatch) (hauth : buildAuth gs tokens = .ok cfg.auth)
    (s : IngestSystem cfg) {i : ℕ} {x : Session cfg} (hx : s.sessions[i]? = some x)
    {body : Except String Json} (hdenied : Denied isMatch tokens cfg.ulid x.token body) (nowMs : Int64)
    (rate : Option Duration) :
    (s.message i body nowMs rate).batches = s.batches ∧ (s.message i body nowMs rate).tx = s.tx := by
  unfold message
  split
  · exact ⟨rfl,rfl⟩
  next x' hx' =>
    obtain rfl : x = x' := Option.some.inj (hx.symm.trans hx')
    split
    · exact ⟨rfl,rfl⟩
    · dsimp only
      split
      · exact ⟨rfl,rfl⟩
      next events haccept =>
        obtain ⟨hparse,hchecked⟩ := wsAdmit_ok haccept
        exact (hdenied.elim hgs hauth x.known hparse fun e he => (hchecked e he).1).elim

end IngestSystem

open IngestSystem in
/-- In every reachable state the tokens are enforced. -/
theorem tokens_enforced {gs : Globset} {isMatch : String → String → Bool} (hgs : gs.AnyMatches isMatch)
    {tokens : List HttpToken} {cfg : IngestConfig} (hauth : buildAuth gs tokens = .ok cfg.auth)
    (schemas : SchemaIndex) (coldTx : Option (Channel Event)) (embedSink : Option EmbedSink)
    (forwardTx : Option (Channel Event)) (brokers : List MqttSubscriber) (l : List IngestAction) :
    TokensEnforced isMatch tokens
      ((spawn (.new schemas coldTx embedSink forwardTx) brokers : IngestSystem cfg).run l) where
  permitted _ hx _ hi :=
    ((Ordered.spawn (.new rfl rfl) brokers).run l).permitted hgs hauth hx hi
  http _ _ nowMs rate hdenied := http_denied hgs hauth _ hdenied nowMs rate
  message _ _ _ nowMs rate hx hdenied := message_denied hgs hauth _ hx hdenied nowMs rate

theorem literalGlobs_anyMatches : literalGlobs.AnyMatches fun p s => p = s := by
  rintro patterns set hset s
  obtain rfl := Except.ok.inj hset
  simp

def camToken : HttpToken := ⟨"cams",["cam"],["frame"],some "10/s",some "t"⟩

/-- Its only token may write frames of one camera. -/
def camConfig : IngestConfig where
  ulid := crockfordText
  auth := match buildAuth literalGlobs [camToken] with
    | .ok auth => auth
    | .error _ => ⟨fun _ => none⟩
  fromSlice := fun _ => .error "EOF while parsing a value at line 1 column 0"

open IngestSystem in
/-- One event of the camera goes to the bus. -/
theorem tokens_enforced_cam :
    let s : IngestSystem camConfig := (spawn (.new .empty none none none) []).run
      [.http (some "Bearer t") (stateText "on") 0 none,.send 0]
    s.tx.sent.length = 1 ∧ TokensEnforced (fun p s => decide (p = s)) [camToken] s :=
  ⟨by rfl,tokens_enforced literalGlobs_anyMatches (by rfl) .empty none none none [] _⟩

end Percept
