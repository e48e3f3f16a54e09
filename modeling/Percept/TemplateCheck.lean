import Percept.TopicMatch
import Percept.TemplateGrammar

/-! Whether a subscription that compiles can fail on its template. Compiling looks at the JSONPath
only; the captures of a filter have the same shape for every topic, so the template alone decides. -/
namespace Percept

structure Subscription where
  topicFilter : String
  sourceIdTemplate : String
  kind : Option String
  kindField : Option String
  payload : PayloadFormat

inductive CompileError
  | badJsonPath (path error : String)
  deriving DecidableEq

/-- `CompiledSubscription::compile`; `parse` is the parser of JSONPath. -/
def CompiledSubscription.compile (parse : String → Except String JsonPath) (sub : Subscription) :
    Except CompileError CompiledSubscription :=
  match sub.kindField with
  | none => .ok ⟨sub.topicFilter,sub.sourceIdTemplate,sub.kind,none,sub.payload⟩
  | some p => match parse p with
    | .error e => .error (.badJsonPath p e)
    | .ok path => .ok ⟨sub.topicFilter,sub.sourceIdTemplate,sub.kind,some (path,p),sub.payload⟩

/-- A template of literals and placeholders whose bodies are accepted. -/
inductive Reads (accept : List Char → Prop) : List Char → Prop
  | nil : Reads accept []
  | literal {t : List Char} (c : Char) (hc : c ≠ '\x7b') (h : Reads accept t) : Reads accept (c::t)
  | placeholder {body t : List Char} (hclosed : '\x7d' ∉ body) (hbody : accept body)
    (h : Reads accept t) : Reads accept ('\x7b'::(body ++ '\x7d'::t))

/-- The body names a capture of a filter with that many `+` levels, or its `#`. -/
def FitsBody (count : ℕ) (hash : Bool) (body : List Char) : Prop :=
  body = ['#'] ∧ hash = true ∨
    ∃ idx n, body = '+'::idx ∧ IsUnsigned 64 (withoutPlus idx) n ∧ 1 ≤ n ∧ n ≤ count

/-- The number of `+` levels before the first `#`. -/
def plusCount (filter : List String) : ℕ := (filter.takeWhile (· ≠ "#")).count "+"

/-- The template asks for captures that the filter has. -/
def TemplateFits (filter template : String) : Prop :=
  Reads (FitsBody (plusCount (splitOn '/' filter)) ("#" ∈ splitOn '/' filter)) template.toList

section

variable {accept : List Char → Prop} {body t : List Char}

theorem Reads.of_literal {c : Char} (hc : c ≠ '\x7b') (h : Reads accept (c::t)) : Reads accept t := by
  cases h with
  | literal c hc h => exact h
  | placeholder => exact absurd rfl hc

theorem Reads.of_open (h : Reads accept ('\x7b'::t)) : ∃ body rest, t = body ++ '\x7d'::rest ∧
    '\x7d' ∉ body ∧ accept body ∧ Reads accept rest := by
  generalize hu : '\x7b'::t = u at h
  cases h with
  | nil => cases hu
  | literal c hc h => exact absurd (List.cons.inj hu).1.symm hc
  | placeholder hclosed hbody h => exact ⟨_,_,(List.cons.inj hu).2,hclosed,hbody,h⟩

theorem Reads.of_closed (hclosed : '\x7d' ∉ body) (h : Reads accept ('\x7b'::(body ++ '\x7d'::t))) :
    accept body ∧ Reads accept t := by
  obtain ⟨body',t',heq,hclosed',hbody,h⟩ := h.of_open
  obtain ⟨rfl,rfl⟩ := ByteSlice.append_cons_inj hclosed hclosed' heq
  exact ⟨hbody,h⟩

/-- A template is rendered when every placeholder of it is. -/
theorem renderFrom_isOk_iff (captures : TopicCaptures) : (∃ out, renderFrom captures none t = .ok out) ↔
    Reads (fun body => ∃ s, placeholder captures body = .ok s) t := by
  induction t using template_induction with
  | nil => exact iff_of_true ⟨"",rfl⟩ .nil
  | literal c t hc ih =>
    simp only [renderFrom_literal_iff hc]
    constructor
    · rintro ⟨_,rest,hrest,-⟩
      exact .literal c hc (ih.mp ⟨rest,hrest⟩)
    · intro h
      obtain ⟨rest,hrest⟩ := ih.mpr (h.of_literal hc)
      exact ⟨_,rest,hrest,rfl⟩
  | unclosed rest hrest =>
    refine iff_of_false ?_ fun h => ?_
    · rintro ⟨out,h⟩
      exact renderFrom_unclosed_ne hrest h
    · obtain ⟨body,t,rfl,-⟩ := h.of_open
      simp at hrest
  | closed body t hbody ih =>
    simp only [renderFrom_closed_iff hbody]
    constructor
    · rintro ⟨_,s,rest,hs,hrest,-⟩
      exact .placeholder hbody ⟨s,hs⟩ (ih.mp ⟨rest,hrest⟩)
    · intro h
      obtain ⟨⟨s,hs⟩,h⟩ := h.of_closed hbody
      obtain ⟨rest,hrest⟩ := ih.mpr h
      exact ⟨_,s,rest,hs,hrest,rfl⟩

/-- Only the shape of the captures matters for a placeholder. -/
theorem placeholder_isOk_iff (captures : TopicCaptures) :
    (∃ s, placeholder captures body = .ok s) ↔
      FitsBody captures.pluses.length captures.hash.isSome body := by
  simp only [placeholder_eq_ok_iff,FitsBody,Option.isSome_iff_exists]
  constructor
  · rintro ⟨s,⟨hbody,hhash⟩ | ⟨idx,n,hbody,hn,hget⟩⟩
    · exact .inl ⟨hbody,s,hhash⟩
    · exact .inr ⟨idx,n+1,hbody,hn,Nat.succ_pos n,(List.getElem?_eq_some_iff.mp hget).1⟩
  · rintro (⟨hbody,s,hhash⟩ | ⟨idx,n,hbody,hn,hpos,hle⟩)
    · exact ⟨s,.inl ⟨hbody,hhash⟩⟩
    · obtain ⟨m,rfl⟩ := Nat.exists_eq_add_of_le' hpos
      exact ⟨_,.inr ⟨idx,m,hbody,hn,List.getElem?_eq_getElem hle⟩⟩

theorem Reads.congr {accept' : List Char → Prop} (h : ∀ body, accept body ↔ accept' body)
    (ht : Reads accept t) : Reads accept' t := by
  induction ht with
  | nil => exact .nil
  | literal c hc _ ih => exact .literal c hc ih
  | placeholder hclosed hbody _ ih => exact .placeholder hclosed ((h _).mp hbody) ih

/-- Rendering depends on the captures only through their shape. -/
theorem render_isOk_iff (captures : TopicCaptures) (template : String) :
    (∃ out, render template captures = .ok out) ↔
      Reads (FitsBody captures.pluses.length captures.hash.isSome) template.toList :=
  (renderFrom_isOk_iff captures).trans
    ⟨.congr fun _ => placeholder_isOk_iff captures,.congr fun _ => (placeholder_isOk_iff captures).symm⟩

end

section

variable {filter levels pluses : List String} {captures : TopicCaptures}

theorem plusCount_cons {s : String} (h : s ≠ "#") (filter : List String) :
    plusCount (s::filter) = plusCount filter+if s = "+" then 1 else 0 := by
  simp [plusCount,h,List.count_cons]

/-- The captures of a filter have one shape. -/
theorem capturesFrom_shape
    (h : TopicMatcher.capturesFrom (filter.map .ofPart) levels pluses = some captures) :
    captures.pluses.length = pluses.length+plusCount filter ∧
      captures.hash.isSome = decide ("#" ∈ filter) := by
  induction filter generalizing levels pluses with
  | nil =>
    cases levels with
    | nil =>
      obtain rfl := Option.some.inj h
      exact ⟨rfl,rfl⟩
    | cons level levels => cases h
  | cons s filter ih =>
    by_cases hhash : s = "#"
    · subst hhash
      have hloop : TopicMatcher.capturesFrom (("#"::filter).map .ofPart) levels pluses =
          some ⟨pluses,some ("/".intercalate levels)⟩ := by
        cases levels <;> rfl
      obtain rfl := Option.some.inj (hloop.symm.trans h)
      simp [plusCount]
    · rw [List.map_cons,TopicSegment.ofPart,if_neg hhash] at h
      have hmem : decide ("#" ∈ s::filter) = decide ("#" ∈ filter) := by simp [Ne.symm hhash]
      rw [plusCount_cons hhash,hmem]
      cases levels with
      | nil => split_ifs at h <;> cases h
      | cons level levels =>
        split_ifs at h ⊢ with hplus
        · obtain ⟨hlen,hsome⟩ := ih h
          exact ⟨by rw [hlen,List.length_append,List.length_singleton]; omega,hsome⟩
        · rw [TopicMatcher.capturesFrom] at h
          split_ifs at h
          exact ih h

/-- A filter matches its own text. -/
theorem capturesFrom_self (filter pluses : List String) :
    ∃ captures, TopicMatcher.capturesFrom (filter.map .ofPart) filter pluses = some captures := by
  induction filter generalizing pluses with
  | nil => exact ⟨_,rfl⟩
  | cons s filter ih =>
    rw [List.map_cons,TopicSegment.ofPart]
    split_ifs with hplus hhash
    · exact ih _
    · exact ⟨_,rfl⟩
    · rw [TopicMatcher.capturesFrom,if_pos rfl]
      exact ih _

end

/-- For a topic that the filter matches the template is rendered exactly when it fits the filter. -/
theorem render_captures_iff {filter topic template : String} {captures : TopicCaptures}
    (h : (TopicMatcher.new filter).captures topic = some captures) :
    (∃ out, render template captures = .ok out) ↔ TemplateFits filter template := by
  obtain ⟨hlen,hhash⟩ := @capturesFrom_shape (splitOn '/' filter) _ _ _ h
  rw [render_isOk_iff,hlen,hhash,List.length_nil,Nat.zero_add]
  rfl

namespace CompiledSubscription

variable {parse : String → Except String JsonPath}

theorem compile_ok {sub : Subscription} {c : CompiledSubscription} (h : compile parse sub = .ok c) :
    c.topicFilter = sub.topicFilter ∧ c.sourceIdTemplate = sub.sourceIdTemplate := by
  unfold compile at h
  split at h
  · obtain rfl := Except.ok.inj h
    exact ⟨rfl,rfl⟩
  · split at h
    · cases h
    · obtain rfl := Except.ok.inj h
      exact ⟨rfl,rfl⟩

end CompiledSubscription

/-- The subscription that takes the messages of a topic. -/
def firstFor (subs : List Subscription) (topic : String) : Option Subscription :=
  subs.find? fun sub => ((TopicMatcher.new sub.topicFilter).captures topic).isSome

theorem resolveKind_error {sub : CompiledSubscription} {semantic : Json} {e : RouteError}
    (h : resolveKind sub semantic = .error e) : ∃ path, e = .unresolvedKind path := by
  unfold resolveKind at h
  split at h
  · cases h
  · split at h
    · obtain rfl := Except.error.inj h
      exact ⟨_,rfl⟩
    · split at h
      · cases h
      · obtain rfl := Except.error.inj h
        exact ⟨_,rfl⟩

section

variable {fromSlice : List UInt8 → Except String Json} {topic : String} {payload : List UInt8}
  {tsMsUtc : Int64} {producerId : Option String}

/-- A message fails on a template exactly when that of the first subscription for its topic does
not fit. -/
theorem route_template_iff {subs : List Subscription} {compiled : List CompiledSubscription}
    (h : List.Forall₂ (fun sub c => c.topicFilter = sub.topicFilter ∧
      c.sourceIdTemplate = sub.sourceIdTemplate) subs compiled) :
    (∃ e, route fromSlice topic payload tsMsUtc producerId compiled = .error (.template e)) ↔
      ∃ sub, firstFor subs topic = some sub ∧ ¬TemplateFits sub.topicFilter sub.sourceIdTemplate := by
  induction h with
  | nil => simp [route,firstFor]
  | @cons sub c subs compiled hc _ ih =>
    obtain ⟨hfilter,htemplate⟩ := hc
    unfold route firstFor
    rw [List.find?_cons,CompiledSubscription.matcher,hfilter,htemplate]
    cases hcaptures : (TopicMatcher.new sub.topicFilter).captures topic with
    | none => exact ih
    | some captures =>
      have hrender : _ ↔ TemplateFits _ sub.sourceIdTemplate := render_captures_iff hcaptures
      simp only [Option.isSome_some,Option.some.injEq,exists_eq_left']
      rw [← hrender]
      cases hout : render sub.sourceIdTemplate captures with
      | error e => simp
      | ok sourceId =>
        refine iff_of_false ?_ fun hno => hno ⟨sourceId,rfl⟩
        rintro ⟨e,h⟩
        simp only at h
        cases hdecode : decode fromSlice c.payload payload with
        | error e =>
          rw [hdecode] at h
          cases h
        | ok semantic =>
          simp only [hdecode] at h
          cases hkind : resolveKind c semantic with
          | error e =>
            rw [hkind] at h
            obtain ⟨path,rfl⟩ := resolveKind_error hkind
            cases h
          | ok kind =>
            rw [hkind] at h
            cases h

end

/-- A subscription that compiles never fails on its template exactly when the template asks for
captures of its filter; and no message of a list of subscriptions does exactly when this holds of
those that come first for some topic. -/
theorem template_never_fails_iff (parse : String → Except String JsonPath) :
    (∀ sub c, CompiledSubscription.compile parse sub = .ok c →
      ((∀ topic captures, c.matcher.captures topic = some captures →
          ∃ out, render c.sourceIdTemplate captures = .ok out) ↔
        TemplateFits sub.topicFilter sub.sourceIdTemplate)) ∧
    ∀ subs compiled, subs.mapM (CompiledSubscription.compile parse) = .ok compiled →
      ((∀ fromSlice topic payload tsMsUtc producerId e,
          route fromSlice topic payload tsMsUtc producerId compiled ≠ .error (.template e)) ↔
        ∀ topic sub, firstFor subs topic = some sub →
          TemplateFits sub.topicFilter sub.sourceIdTemplate) := by
  constructor
  · intro sub c hcompile
    obtain ⟨hfilter,htemplate⟩ := CompiledSubscription.compile_ok hcompile
    rw [CompiledSubscription.matcher,hfilter,htemplate]
    constructor
    · intro h
      obtain ⟨captures,hself⟩ := capturesFrom_self (splitOn '/' sub.topicFilter) []
      exact (render_captures_iff hself).mp (h sub.topicFilter captures hself)
    · exact fun h topic captures hcaptures => (render_captures_iff hcaptures).mpr h
  · intro subs compiled hcompile
    have hall := (mapM_ok_iff.mp hcompile).imp fun sub c => CompiledSubscription.compile_ok
    constructor
    · intro h topic sub hfirst
      by_contra hno
      have hroute : ∃ e, route (fun _ => .error "") topic [] 0 none compiled = .error (.template e) :=
        (route_template_iff hall).mpr ⟨sub,hfirst,hno⟩
      obtain ⟨e,he⟩ := hroute
      exact h _ _ _ _ _ e he
    · intro h fromSlice topic payload tsMsUtc producerId e he
      obtain ⟨sub,hfirst,hno⟩ := (route_template_iff hall).mp ⟨e,he⟩
      exact hno (h topic sub hfirst)

/-- One `+` level, and a template that asks for a second capture. -/
def shortFilter : Subscription := ⟨"home/+","temp.\x7b+2\x7d",some "temperature",none,.json⟩

/-- The subscription compiles and fails on its messages. -/
theorem template_never_fails_fails : ∃ c,
    CompiledSubscription.compile (fun _ => .error "no path") shortFilter = .ok c ∧
    ∀ payload, route (fun _ => .ok .null) "home/kitchen" payload 0 none [c] =
      .error (.template (.outOfRange 2 1)) :=
  ⟨_,rfl,fun _ => rfl⟩

end Percept
