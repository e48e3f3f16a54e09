import Percept.Config
import Percept.TokenScopes

/-! What `server::run` builds from a configuration that has passed the check: the retention
policies, the scopes of the tokens and the cadence of the sweeper. -/
namespace Percept

/-- `[storage]`, as far as the sweeper goes. -/
structure Storage where
  sweeperInterval : Option String := none

/-- The configuration with the sections that only the startup reads. -/
structure StartupConfig extends Config where
  storage : Option Storage := none
  httpTokens : List HttpToken := []

/-- The copy of the duration grammar that the policies are built with. -/
def parseDurationStr (s : String) : Except DurationError Duration := parseDuration s

inductive RetentionError
  | maxAge (s : String) (e : DurationError)
  | vectorMaxAge (s : String) (e : DurationError)
  deriving DecidableEq

/-- The optional string of one dimension. -/
def parseAge (context : String → DurationError → RetentionError) :
    Option String → Except RetentionError (Option Duration)
  | none => .ok none
  | some s => match parseDurationStr s with
    | .error e => .error (context s e)
    | .ok d => .ok (some d)

def buildRetentionPolicy (r : RetentionEntry) : Except RetentionError RetentionPolicy := do
  let maxAge ← parseAge .maxAge r.maxAge
  let vectorMaxAge ← parseAge .vectorMaxAge r.vectorMaxAge
  return ⟨r.matchSourceId,r.matchKind,maxAge,r.maxCount,r.maxBytes,vectorMaxAge⟩

def buildRetentionPolicies (cfg : Config) : Except RetentionError (List RetentionPolicy) :=
  cfg.retention.mapM buildRetentionPolicy

/-- A third copy of the grammar; what it does not read is as if it were not set. -/
def parseCadenceOrWarn (s : String) : Option Duration :=
  let s := trim s
  let digits := s.takeWhile Char.isDigit
  let unit := s.dropWhile Char.isDigit
  if unit.isEmpty then none
  else match parseUnsigned 64 digits with
    | none => none
    | some n =>
      let scaled (k : ℕ) : Option Duration :=
        if n*k < 2^64 then some (.fromSecs (.ofNat (n*k))) else none
      if unit = ['s'] then scaled 1
      else if unit = ['m'] then scaled 60
      else if unit = ['h'] then scaled 3600
      else if unit = ['d'] then scaled 86400
      else none

/-- The cadence that the sweeper is spawned with; an hour unless configured. -/
def cadence (storage : Option Storage) : Duration :=
  ((storage.bind Storage.sweeperInterval).bind parseCadenceOrWarn).getD (.fromSecs 3600)

/-- Decimal value of a string of digits. -/
def decimal (digits : List Char) : ℕ := digits.foldl (fun n c => 10*n+(c.toNat- '0'.toNat)) 0

/-- The text after an optional sign. -/
def withoutPlus (s : List Char) : List Char := if s.head? = some '+' then s.tail else s

/-- A string of digits with a value below some power of two. -/
structure IsUnsigned (bits : ℕ) (digits : List Char) (n : ℕ) : Prop where
  nonempty : digits ≠ []
  digit : ∀ c ∈ digits, c.isDigit = true
  value : decimal digits = n
  fits : n < 2^bits

theorem parseUnsigned_eq_some_iff {bits n : ℕ} {s : List Char} :
    parseUnsigned bits s = some n ↔ IsUnsigned bits (withoutPlus s) n := by
  have hdef : parseUnsigned bits s =
      if (withoutPlus s).isEmpty || !(withoutPlus s).all Char.isDigit then none
      else if decimal (withoutPlus s) < 2^bits then some (decimal (withoutPlus s)) else none := rfl
  rw [hdef]
  constructor
  · intro h
    split_ifs at h with hbad hlt
    simp only [Bool.or_eq_true,List.isEmpty_iff,Bool.not_eq_true',not_or,Bool.not_eq_false,
      List.all_eq_true] at hbad
    obtain rfl := Option.some.inj h
    exact ⟨hbad.1,hbad.2,rfl,hlt⟩
  · rintro ⟨hne,hdigit,rfl,hlt⟩
    have hgood : ¬((withoutPlus s).isEmpty || !(withoutPlus s).all Char.isDigit) = true := by
      simpa [hne] using hdigit
    rw [if_neg hgood,if_pos hlt]

/-- Digits have no sign. -/
theorem withoutPlus_digits {s : List Char} (h : ∀ c ∈ s, c.isDigit = true) : withoutPlus s = s := by
  refine if_neg fun hplus => ?_
  exact absurd (h '+' (List.mem_of_head? hplus)) (by decide)

def unitSecs (unit : List Char) : Option ℕ :=
  if unit = ['s'] then some 1
  else if unit = ['m'] then some 60
  else if unit = ['h'] then some 3600
  else if unit = ['d'] then some 86400
  else none

/-- The text is a number and a unit, `secs` seconds together. -/
def IsDuration (s : String) (secs : ℕ) : Prop :=
  ∃ digits unit k, trim s = digits ++ unit ∧ digits ≠ [] ∧ (∀ c ∈ digits, c.isDigit = true) ∧
    unitSecs unit = some k ∧ decimal digits*k = secs ∧ secs < 2^64

/-- `"N/s"`, `"N/m"` or `"N/h"` with a positive 32-bit `N`. -/
def IsRateLimit (s : String) : Prop :=
  ∃ n unit, splitOnce '/' s = some (n,unit) ∧
    (∃ k, 0 < k ∧ IsUnsigned 32 (withoutPlus (trim n)) k) ∧
    (trim unit = ['s'] ∨ trim unit = ['m'] ∨ trim unit = ['h'])

theorem parseRateLimit_ok_iff {s : String} : (∃ l, parseRateLimit s = .ok l) ↔ IsRateLimit s := by
  unfold parseRateLimit IsRateLimit
  cases hsplit : splitOnce '/' s with
  | none => simp
  | some x =>
    obtain ⟨n,unit⟩ := x
    simp only [Option.some.injEq,Prod.mk.injEq]
    constructor
    · rintro ⟨l,h⟩
      refine ⟨n,unit,⟨rfl,rfl⟩,?_⟩
      split at h
      · cases h
      · cases h
      next k hk =>
        split_ifs at h with hunit
        exact ⟨⟨k+1,Nat.succ_pos k,parseUnsigned_eq_some_iff.mp hk⟩,hunit⟩
    · rintro ⟨_,_,⟨rfl,rfl⟩,⟨k,hpos,hk⟩,hunit⟩
      obtain ⟨j,rfl⟩ := Nat.exists_eq_succ_of_ne_zero hpos.ne'
      rw [parseUnsigned_eq_some_iff.mpr hk]
      exact ⟨_,if_pos hunit⟩

/-- A unit is positive and has no digits. -/
theorem unitSecs_spec {unit : List Char} {k : ℕ} (h : unitSecs unit = some k) :
    0 < k ∧ unit.takeWhile Char.isDigit = [] ∧ unit.dropWhile Char.isDigit = unit := by
  unfold unitSecs at h
  split_ifs at h with h₁ h₂ h₃ h₄ <;> obtain rfl := Option.some.inj h <;> subst unit <;> decide

section Durations

variable {s : String} {secs : ℕ}

/-- What the three copies of the grammar have in common: the digits, the rest and the product. -/
theorem isDuration_iff : IsDuration s secs ↔
    ∃ n k, parseUnsigned 64 ((trim s).takeWhile Char.isDigit) = some n ∧
      unitSecs ((trim s).dropWhile Char.isDigit) = some k ∧ n*k = secs ∧ secs < 2^64 := by
  have hdigits : ∀ c ∈ (trim s).takeWhile Char.isDigit, c.isDigit = true := by
    intro c hc
    simpa using List.mem_takeWhile_imp hc
  constructor
  · rintro ⟨digits,unit,k,htrim,hne,hdigit,hunit,hmul,hlt⟩
    obtain ⟨hpos,htake,hdrop⟩ := unitSecs_spec hunit
    have hsplit₁ : (trim s).takeWhile Char.isDigit = digits := by
      rw [htrim,List.takeWhile_append_of_pos hdigit,htake,List.append_nil]
    have hsplit₂ : (trim s).dropWhile Char.isDigit = unit := by
      rw [htrim,List.dropWhile_append_of_pos hdigit,hdrop]
    have hle : decimal digits ≤ decimal digits*k := Nat.le_mul_of_pos_right _ hpos
    refine ⟨decimal digits,k,parseUnsigned_eq_some_iff.mpr ?_,hsplit₂ ▸ hunit,hmul,hlt⟩
    rw [hsplit₁,withoutPlus_digits hdigit]
    exact ⟨hne,hdigit,rfl,by omega⟩
  · rintro ⟨n,k,hn,hunit,hmul,hlt⟩
    obtain ⟨hne,_,hvalue,_⟩ := parseUnsigned_eq_some_iff.mp hn
    rw [withoutPlus_digits hdigits] at hne hvalue
    exact ⟨_,_,k,(List.takeWhile_append_dropWhile).symm,hne,hdigits,hunit,by rw [hvalue,hmul],hlt⟩

theorem parseCadenceOrWarn_eq (s : String) : parseCadenceOrWarn s =
    (parseUnsigned 64 ((trim s).takeWhile Char.isDigit)).bind fun n =>
      (unitSecs ((trim s).dropWhile Char.isDigit)).bind fun k =>
        if n*k < 2^64 then some (.fromSecs (.ofNat (n*k))) else none := by
  unfold parseCadenceOrWarn
  dsimp only
  generalize (trim s).takeWhile Char.isDigit = digits
  generalize (trim s).dropWhile Char.isDigit = unit
  cases unit with
  | nil => cases parseUnsigned 64 digits <;> rfl
  | cons c unit =>
    cases parseUnsigned 64 digits with
    | none => rfl
    | some n =>
      simp only [List.isEmpty_cons,Bool.false_eq_true,if_false,Option.bind_some,unitSecs]
      by_cases hsecs : c::unit = ['s']
      · rw [if_pos hsecs,if_pos hsecs,Option.bind_some]
      by_cases hmins : c::unit = ['m']
      · rw [if_neg hsecs,if_neg hsecs,if_pos hmins,if_pos hmins,Option.bind_some]
      by_cases hhours : c::unit = ['h']
      · rw [if_neg hsecs,if_neg hsecs,if_neg hmins,if_neg hmins,if_pos hhours,if_pos hhours,Option.bind_some]
      rw [if_neg hsecs,if_neg hsecs,if_neg hmins,if_neg hmins,if_neg hhours,if_neg hhours]
      by_cases hdays : c::unit = ['d']
      · rw [if_pos hdays,if_pos hdays,Option.bind_some]
      · rw [if_neg hdays,if_neg hdays,Option.bind_none]

/-- The copies of the grammar accept the same strings. -/
theorem toOption_parseDuration (s : String) : (parseDuration s).toOption = parseCadenceOrWarn s := by
  unfold parseDuration parseCadenceOrWarn
  dsimp only
  generalize (trim s).takeWhile Char.isDigit = digits
  generalize (trim s).dropWhile Char.isDigit = unit
  by_cases hunit : unit.isEmpty = true
  · rw [if_pos hunit,if_pos hunit]
    rfl
  rw [if_neg hunit,if_neg hunit]
  cases digits with
  | nil => rfl
  | cons c digits =>
    rw [if_neg (by simp)]
    cases parseUnsigned 64 (c::digits) with
    | none => rfl
    | some n =>
      dsimp only
      split_ifs <;> rfl

theorem parseCadenceOrWarn_eq_some_iff {d : Duration} : parseCadenceOrWarn s = some d ↔
    ∃ secs, IsDuration s secs ∧ d = .fromSecs (.ofNat secs) := by
  rw [parseCadenceOrWarn_eq]
  simp only [isDuration_iff,Option.bind_eq_some_iff]
  constructor
  · rintro ⟨n,hn,k,hk,h⟩
    split_ifs at h with hlt
    exact ⟨n*k,⟨n,k,hn,hk,rfl,hlt⟩,(Option.some.inj h).symm⟩
  · rintro ⟨_,⟨n,k,hn,hk,rfl,hlt⟩,rfl⟩
    exact ⟨n,hn,k,hk,if_pos hlt⟩

theorem parseDuration_ok_iff {d : Duration} : parseDuration s = .ok d ↔
    ∃ secs, IsDuration s secs ∧ d = .fromSecs (.ofNat secs) := by
  rw [← parseCadenceOrWarn_eq_some_iff,← toOption_parseDuration]
  cases parseDuration s <;> simp [Except.toOption]

end Durations

theorem mapM_ok_iff {ε α β : Type} {f : α → Except ε β} {l : List α} {ys : List β} :
    l.mapM f = .ok ys ↔ List.Forall₂ (fun x y => f x = .ok y) l ys := by
  induction l generalizing ys with
  | nil => simp [pure,Except.pure,eq_comm]
  | cons x l ih =>
    rw [List.mapM_cons,List.forall₂_cons_left_iff]
    constructor
    · intro h
      obtain ⟨y,hy,h⟩ := exists_of_bind h
      obtain ⟨rest,hrest,h⟩ := exists_of_bind h
      exact ⟨y,rest,hy,ih.mp hrest,(Except.ok.inj h).symm⟩
    · rintro ⟨y,rest,hy,hrest,rfl⟩
      rw [hy,ih.mpr hrest]
      rfl

theorem forM_ok_iff {ε α : Type} {f : α → Except ε Unit} {l : List α} :
    l.forM f = .ok () ↔ ∀ x ∈ l, f x = .ok () := by
  induction l with
  | nil => exact iff_of_true rfl (by simp)
  | cons a l ih =>
    rw [List.forall_mem_cons,← ih]
    constructor
    · intro h
      obtain ⟨⟨⟩,ha,hl⟩ := exists_of_bind h
      exact ⟨ha,hl⟩
    · rintro ⟨ha,hl⟩
      exact (congrArg (· >>= fun _ => l.forM f) ha).trans hl

/-- In an entry that was accepted both ages parse, when both are there, and the vectors' is not
the longer one. -/
theorem Config.ages_of_check {cfg : Config} (h : cfg.check = .ok ()) {r : RetentionEntry}
    (hr : r ∈ cfg.retention) {maxAge vmax : String} (hmax : r.maxAge = some maxAge)
    (hvmax : r.vectorMaxAge = some vmax) : ∃ raw vec, parseDuration maxAge = .ok raw ∧
      parseDuration vmax = .ok vec ∧ vec.secs ≤ raw.secs := by
  obtain ⟨_,_,h⟩ := exists_of_bind h
  obtain ⟨_,_,h⟩ := exists_of_bind h
  obtain ⟨i,hi⟩ := List.mem_iff_getElem?.mp hr
  have hentry : checkRetention i r = .ok () :=
    forM_ok_iff.mp h (r,i) (List.mem_zipIdx_iff_getElem?.mpr hi)
  unfold checkRetention at hentry
  rw [hmax,hvmax] at hentry
  dsimp only at hentry
  split_ifs at hentry
  cases hraw : parseDuration maxAge with
  | error e => rw [hraw] at hentry; cases hentry
  | ok raw =>
    cases hvec : parseDuration vmax with
    | error e => rw [hraw,hvec] at hentry; cases hentry
    | ok vec =>
      rw [hraw,hvec] at hentry
      dsimp only at hentry
      split_ifs at hentry with hle
      exact ⟨raw,vec,rfl,rfl,UInt64.not_lt.mp hle⟩

theorem parseAge_ok_iff (context : String → DurationError → RetentionError) (age : Option String) :
    (∃ d, parseAge context age = .ok d) ↔ ∀ s, age = some s → ∃ d, parseDuration s = .ok d := by
  cases age with
  | none => simp [parseAge]
  | some s => cases h : parseDuration s <;> simp [parseAge,parseDurationStr,h]

theorem buildRetentionPolicy_ok_iff {r : RetentionEntry} : (∃ p, buildRetentionPolicy r = .ok p) ↔
    ∀ s, r.maxAge = some s ∨ r.vectorMaxAge = some s → ∃ d, parseDuration s = .ok d := by
  have hmax := parseAge_ok_iff .maxAge r.maxAge
  have hvector := parseAge_ok_iff .vectorMaxAge r.vectorMaxAge
  constructor
  · rintro ⟨p,h⟩ s hs
    obtain ⟨maxAge,hm,h⟩ := exists_of_bind h
    obtain ⟨vectorMaxAge,hv,_⟩ := exists_of_bind h
    rcases hs with hs | hs
    · exact hmax.mp ⟨_,hm⟩ s hs
    · exact hvector.mp ⟨_,hv⟩ s hs
  · intro h
    obtain ⟨maxAge,hm⟩ := hmax.mpr fun s hs => h s (Or.inl hs)
    obtain ⟨vectorMaxAge,hv⟩ := hvector.mpr fun s hs => h s (Or.inr hs)
    refine ⟨⟨r.matchSourceId,r.matchKind,maxAge,r.maxCount,r.maxBytes,vectorMaxAge⟩,?_⟩
    rw [buildRetentionPolicy,hm,hv]
    rfl

theorem buildRetentionPolicies_ok_iff {cfg : Config} : (∃ l, buildRetentionPolicies cfg = .ok l) ↔
    ∀ r ∈ cfg.retention, ∃ p, buildRetentionPolicy r = .ok p := by
  simp only [buildRetentionPolicies,mapM_ok_iff]
  induction cfg.retention with
  | nil => simp
  | cons r l ih =>
    rw [List.forall_mem_cons,← ih]
    constructor
    · rintro ⟨_,hall⟩
      cases hall with
      | cons hp hrest => exact ⟨⟨_,hp⟩,_,hrest⟩
    · rintro ⟨⟨p,hp⟩,ps,hrest⟩
      exact ⟨p::ps,.cons hp hrest⟩

theorem buildGlobs_literal (patterns : List String) : ∃ set, buildGlobs literalGlobs patterns = .ok set := by
  have hall : ∀ f : String → Except AuthError Unit, (∀ p, f p = .ok ()) → patterns.forM f = .ok () :=
    fun f h => forM_ok_iff.mpr fun p _ => h p
  exact ⟨fun s => patterns.contains s,congrArg (· >>= fun _ => Except.ok _) (hall _ fun _ => rfl)⟩

namespace StartupConfig

/-- The startup builders do not fail and the sweeper's timer has a period. -/
structure Served (cfg : StartupConfig) : Prop where
  policies : ∃ policies, buildRetentionPolicies cfg.toConfig = .ok policies
  rateLimits : ∀ t ∈ cfg.httpTokens, ∀ gs sourceGlobs kindGlobs,
    buildGlobs gs t.allowSourceIds = .ok sourceGlobs → buildGlobs gs t.allowKinds = .ok kindGlobs →
      ∃ scope, t.scope gs = .ok scope
  cadence : cadence cfg.storage ≠ .fromSecs 0

/-- The strings that the check does not look at are as the builders want them. -/
structure Servable (cfg : StartupConfig) : Prop where
  loneAge : ∀ r ∈ cfg.retention, ∀ s,
    r.maxAge = some s ∧ r.vectorMaxAge = none ∨ r.maxAge = none ∧ r.vectorMaxAge = some s →
      ∃ secs, IsDuration s secs
  rateLimit : ∀ t ∈ cfg.httpTokens, ∀ s, t.rateLimit = some s → IsRateLimit s
  interval : ∀ s, cfg.storage.bind Storage.sweeperInterval = some s → ¬IsDuration s 0

variable {cfg : StartupConfig}

theorem policies_iff (hcheck : cfg.check = .ok ()) :
    (∃ policies, buildRetentionPolicies cfg.toConfig = .ok policies) ↔ ∀ r ∈ cfg.retention, ∀ s,
      r.maxAge = some s ∧ r.vectorMaxAge = none ∨ r.maxAge = none ∧ r.vectorMaxAge = some s →
        ∃ secs, IsDuration s secs := by
  have hparse : ∀ s, (∃ d, parseDuration s = .ok d) ↔ ∃ secs, IsDuration s secs := by
    intro s
    simp only [parseDuration_ok_iff]
    exact ⟨fun ⟨_,secs,h,_⟩ => ⟨secs,h⟩,fun ⟨secs,h⟩ => ⟨_,secs,h,rfl⟩⟩
  simp only [buildRetentionPolicies_ok_iff,buildRetentionPolicy_ok_iff,← hparse]
  constructor
  · rintro h r hr s (⟨hs,_⟩ | ⟨_,hs⟩)
    · exact h r hr s (Or.inl hs)
    · exact h r hr s (Or.inr hs)
  · intro h r hr s hs
    cases hmax : r.maxAge with
    | none =>
      have hvector : r.vectorMaxAge = some s := by simpa [hmax] using hs
      exact h r hr s (Or.inr ⟨hmax,hvector⟩)
    | some maxAge =>
      cases hvector : r.vectorMaxAge with
      | none =>
        obtain rfl : maxAge = s := by simpa [hmax,hvector] using hs
        exact h r hr maxAge (Or.inl ⟨hmax,hvector⟩)
      | some vmax =>
        -- both are there: the check has parsed them
        obtain ⟨raw,vec,hraw,hvec,_⟩ := Config.ages_of_check hcheck hr hmax hvector
        rcases hs with hs | hs
        · obtain rfl : maxAge = s := by simpa [hmax] using hs
          exact ⟨raw,hraw⟩
        · obtain rfl : vmax = s := by simpa [hvector] using hs
          exact ⟨vec,hvec⟩

theorem rateLimits_iff : (∀ t ∈ cfg.httpTokens, ∀ gs sourceGlobs kindGlobs,
      buildGlobs gs t.allowSourceIds = .ok sourceGlobs → buildGlobs gs t.allowKinds = .ok kindGlobs →
        ∃ scope, t.scope gs = .ok scope) ↔
    ∀ t ∈ cfg.httpTokens, ∀ s, t.rateLimit = some s → IsRateLimit s := by
  refine forall₂_congr fun t _ => ?_
  simp only [← parseRateLimit_ok_iff]
  constructor
  · intro h s hs
    obtain ⟨sourceGlobs,hsource⟩ := buildGlobs_literal t.allowSourceIds
    obtain ⟨kindGlobs,hkind⟩ := buildGlobs_literal t.allowKinds
    obtain ⟨scope,hscope⟩ := h literalGlobs sourceGlobs kindGlobs hsource hkind
    obtain ⟨_,_,hscope⟩ := exists_of_bind hscope
    obtain ⟨_,_,hscope⟩ := exists_of_bind hscope
    obtain ⟨limiter,hlimiter,_⟩ := exists_of_bind hscope
    rw [hs] at hlimiter
    cases hparse : parseRateLimit s with
    | ok l => exact ⟨l,rfl⟩
    | error e =>
      have herror : Option.mapM parseRateLimit (some s) = .error e := by
        simp [Option.mapM,hparse,Functor.map,Except.map]
      rw [herror] at hlimiter
      cases hlimiter
  · intro h gs sourceGlobs kindGlobs hsource hkind
    obtain ⟨limiter,hlimiter⟩ : ∃ limiter, t.rateLimit.mapM parseRateLimit = .ok limiter := by
      cases hs : t.rateLimit with
      | none => exact ⟨none,rfl⟩
      | some s =>
        obtain ⟨l,hl⟩ := h s hs
        exact ⟨some l,by simp [Option.mapM,hl,Functor.map,Except.map]⟩
    exact ⟨_,by rw [HttpToken.scope,TokenScope.build,hsource,hkind,hlimiter]; rfl⟩

theorem cadence_iff : Percept.cadence cfg.storage ≠ .fromSecs 0 ↔
    ∀ s, cfg.storage.bind Storage.sweeperInterval = some s → ¬IsDuration s 0 := by
  have hhour : Duration.fromSecs 3600 ≠ .fromSecs 0 := by decide
  unfold Percept.cadence
  cases cfg.storage.bind Storage.sweeperInterval with
  | none => exact iff_of_true hhour (by simp)
  | some s =>
    simp only [Option.bind_some,Option.some.injEq,forall_eq']
    cases hparse : parseCadenceOrWarn s with
    | none =>
      refine iff_of_true hhour fun hzero => ?_
      rw [parseCadenceOrWarn_eq_some_iff.mpr ⟨0,hzero,rfl⟩] at hparse
      cases hparse
    | some d =>
      obtain ⟨secs,hsecs,rfl⟩ := parseCadenceOrWarn_eq_some_iff.mp hparse
      refine not_congr ⟨fun heq => ?_,fun hzero => ?_⟩
      · have hsecs64 : secs < 2^64 := by
          obtain ⟨_,_,_,_,_,_,_,_,hlt⟩ := hsecs
          exact hlt
        have hnat : (UInt64.ofNat secs).toNat = (UInt64.ofNat 0).toNat :=
          congrArg (fun d => d.secs.toNat) heq
        rw [UInt64.toNat_ofNat_of_lt' hsecs64] at hnat
        obtain rfl : secs = 0 := hnat
        exact hsecs
      · rw [parseCadenceOrWarn_eq_some_iff.mpr ⟨0,hzero,rfl⟩] at hparse
        exact (Option.some.inj hparse).symm

/-- A configuration that was accepted can be served exactly when the strings that the check skips
are in order. -/
theorem served_iff (hcheck : cfg.check = .ok ()) : cfg.Served ↔ cfg.Servable :=
  ⟨fun h => ⟨(policies_iff hcheck).mp h.policies,rateLimits_iff.mp h.rateLimits,cadence_iff.mp h.cadence⟩,
    fun h => ⟨(policies_iff hcheck).mpr h.loneAge,rateLimits_iff.mpr h.rateLimit,
      cadence_iff.mpr h.interval⟩⟩

/-- A lone age without a unit, a limit of nothing a second and a period of zero. -/
def misconfigured : StartupConfig where
  retention := [{ matchKind := some "temperature", maxAge := some "abc" }]
  storage := some ⟨some "0s"⟩
  httpTokens := [⟨"cam",["*"],["*"],some "0/s",some "t"⟩]

/-- The check accepts it, no policies are built and the sweeper's timer has no period. -/
theorem served_fails : misconfigured.check = .ok () ∧
    buildRetentionPolicies misconfigured.toConfig = .error (.maxAge "abc" (.missingNumber "abc")) ∧
    parseRateLimit "0/s" = .error (.invalidRateLimit "0/s") ∧
    Percept.cadence misconfigured.storage = .fromSecs 0 ∧ ¬misconfigured.Served := by
  have hpolicies : buildRetentionPolicies misconfigured.toConfig =
      .error (.maxAge "abc" (.missingNumber "abc")) := by rfl
  refine ⟨by rfl,hpolicies,by rfl,by decide,fun h => ?_⟩
  obtain ⟨policies,hok⟩ := h.policies
  rw [hpolicies] at hok
  cases hok

/-- A month of temperatures, ten events a second, a sweep each hour. -/
def wellConfigured : StartupConfig where
  retention := [{ matchKind := some "temperature", maxAge := some "30d" }]
  storage := some ⟨some "1h"⟩
  httpTokens := [⟨"cam",["*"],["*"],some "10/s",some "t"⟩]

theorem served_wellConfigured : wellConfigured.Served := by
  refine (served_iff (by rfl)).mpr ⟨?_,?_,?_⟩
  · rintro r hr s hs
    obtain rfl := List.mem_singleton.mp hr
    obtain rfl : "30d" = s := by simpa using hs
    exact ⟨2592000,['3','0'],['d'],86400,by decide,by decide,List.all_eq_true.mp (by decide),by decide,
      by decide +kernel,by norm_num⟩
  · rintro t ht s hs
    obtain rfl := List.mem_singleton.mp ht
    obtain rfl := Option.some.inj hs
    exact ⟨"10","s",by decide,⟨10,by decide,by decide,List.all_eq_true.mp (by decide),by decide +kernel,
      by norm_num⟩,by decide⟩
  · rintro s hs hzero
    obtain rfl := Option.some.inj hs
    have hhour : parseCadenceOrWarn "1h" = some (.fromSecs 3600) := by decide +kernel
    rw [parseCadenceOrWarn_eq_some_iff.mpr ⟨0,hzero,rfl⟩] at hhour
    exact absurd hhour (by decide)

end StartupConfig

end Percept
