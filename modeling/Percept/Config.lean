import Percept.Globs
import Percept.Mqtt

/-! The configuration as far as the descriptors, the federation and its checks go, and the rows
that are shown for each declared source and kind. -/
namespace Percept

structure ServerSection where
  dataDir : String
  profile : String := "edge"

structure RetentionEntry where
  matchSourceId : Option String := none
  matchKind : Option String := none
  maxAge : Option String := none
  maxCount : Option Int64 := none
  maxBytes : Option Int64 := none
  vectorMaxAge : Option String := none

structure ForwarderEntry where
  peerId : String
  hubUrl : String
  resolvedHubToken : Option String := none

structure PeerEntry where
  id : String
  mcpUrl : String
  timeoutMs : Option UInt64 := none
  resolvedToken : Option String := none

structure SourceEntry where
  id : String
  kinds : List String
  description : Option String := none
  usage : Option String := none
  caveats : Option String := none
  semanticSchema : Option Json := none
  units : Option String := none
  samplingHintMs : Option Int64 := none
  freshnessTtlMs : Option Int64 := none
  location : Option String := none
  embed : Option Bool := none

structure KindEntry where
  name : String
  version : Option String := none
  description : Option String := none
  usage : Option String := none
  caveats : Option String := none
  semanticSchema : Option Json := none
  units : Option String := none
  embed : Option Bool := none

structure Config where
  server : Option ServerSection := none
  retention : List RetentionEntry := []
  forwarders : List ForwarderEntry := []
  peers : List PeerEntry := []
  sources : List SourceEntry := []
  kinds : List KindEntry := []

/-- A later scalar section wins, arrays of tables accumulate. -/
def Config.merge (cfg overlay : Config) : Config where
  server := overlay.server.or cfg.server
  retention := cfg.retention ++ overlay.retention
  forwarders := cfg.forwarders ++ overlay.forwarders
  peers := cfg.peers ++ overlay.peers
  sources := cfg.sources ++ overlay.sources
  kinds := cfg.kinds ++ overlay.kinds

inductive DurationError
  | missingUnit (s : String) | missingNumber (s : String) | invalidNumber (s : String)
  | overflow | unknownUnit (unit : String)
  deriving DecidableEq

/-- An integer and one of the units `s`, `m`, `h`, `d`. -/
def parseDuration (s : String) : Except DurationError Duration :=
  let s := trim s
  let digits := s.takeWhile Char.isDigit
  let unit := s.dropWhile Char.isDigit
  if unit.isEmpty then .error (.missingUnit (.ofList s))
  else if digits.isEmpty then .error (.missingNumber (.ofList s))
  else match parseUnsigned 64 digits with
    | none => .error (.invalidNumber (.ofList s))
    | some n =>
      let scaled (k : ℕ) : Except DurationError Duration :=
        if n*k < 2^64 then .ok (.fromSecs (.ofNat (n*k))) else .error .overflow
      if unit = ['s'] then scaled 1
      else if unit = ['m'] then scaled 60
      else if unit = ['h'] then scaled 3600
      else if unit = ['d'] then scaled 86400
      else .error (.unknownUnit (.ofList unit))

inductive ConfigError
  | profile (profile : String)
  | duplicateSource (id : String)
  | retentionMatch (i : ℕ)
  | retentionMaxAge (i : ℕ) (e : DurationError)
  | retentionVectorMaxAge (i : ℕ) (e : DurationError)
  | vectorOutlives (i : ℕ) (vectorMaxAge maxAge : String)
  deriving DecidableEq

def checkServer : Option ServerSection → Except ConfigError Unit
  | some server => if server.profile ≠ "edge" then .error (.profile server.profile) else .ok ()
  | none => .ok ()

/-- The scan of the sources with the ids seen so far. -/
def checkSources : List SourceEntry → List String → Except ConfigError Unit
  | [], _ => .ok ()
  | s::rest, seen => if s.id ∈ seen then .error (.duplicateSource s.id) else checkSources rest (s.id::seen)

/-- One `[[retention]]` entry; its vectors must not outlive its events. -/
def checkRetention (i : ℕ) (r : RetentionEntry) : Except ConfigError Unit :=
  if r.matchSourceId.isNone ∧ r.matchKind.isNone then .error (.retentionMatch i)
  else match r.maxAge, r.vectorMaxAge with
    | some maxAge, some vmax => match parseDuration maxAge with
      | .error e => .error (.retentionMaxAge i e)
      | .ok raw => match parseDuration vmax with
        | .error e => .error (.retentionVectorMaxAge i e)
        | .ok vec => if raw.secs < vec.secs then .error (.vectorOutlives i vmax maxAge) else .ok ()
    | _, _ => .ok ()

/-- `validate::check`. -/
def Config.check (cfg : Config) : Except ConfigError Unit := do
  checkServer cfg.server
  checkSources cfg.sources []
  cfg.retention.zipIdx.forM fun x => checkRetention x.2 x.1

/-- `load`, from the files read: the primary one and the overlays in order of their names. -/
def Config.load (primary : Config) (overlays : List Config) : Except ConfigError Config :=
  let cfg := overlays.foldl merge primary
  cfg.check.map fun _ => cfg

structure SourceDescriptor where
  sourceId : String
  kinds : List String
  description : String
  usage : String
  caveats : String
  semanticSchema : Option Json
  units : Option String
  samplingHintMs : Option Int64
  freshnessTtlMs : Option Int64
  location : Option String
  updatedTsMsUtc : Int64

structure KindDescriptor where
  kind : String
  version : String
  description : String
  usage : String
  caveats : String
  semanticSchema : Option Json
  units : Option String
  updatedTsMsUtc : Int64

def sourceDescriptor (s : SourceEntry) : SourceDescriptor where
  sourceId := s.id
  kinds := s.kinds
  description := s.description.getD ""
  usage := s.usage.getD ""
  caveats := s.caveats.getD ""
  semanticSchema := s.semanticSchema
  units := s.units
  samplingHintMs := s.samplingHintMs
  freshnessTtlMs := s.freshnessTtlMs
  location := s.location
  updatedTsMsUtc := 0

def kindDescriptor (k : KindEntry) : KindDescriptor where
  kind := k.name
  version := k.version.getD "v1"
  description := k.description.getD ""
  usage := k.usage.getD ""
  caveats := k.caveats.getD ""
  semanticSchema := k.semanticSchema
  units := k.units
  updatedTsMsUtc := 0

/-- Stands in for a kind without an entry. -/
def syntheticKind (name : String) : KindDescriptor := ⟨name,"v1","","","",none,none,0⟩

/-- All columns of `ResolvedDescriptor`. -/
structure ResolvedRow extends ResolvedDescriptor where
  kindVersion : String
  description : String
  usage : String
  caveats : String
  semanticSchema : Option Json
  units : Option String
  samplingHintMs : Option Int64
  freshnessTtlMs : Option Int64
  location : Option String

def pick (src fallback : String) : String := if src = "" then fallback else src

/-- The source's value wins; its schema replaces the kind's outright. -/
def resolve (source : SourceDescriptor) (kind : KindDescriptor) : ResolvedRow where
  sourceId := source.sourceId
  kind := kind.kind
  kindVersion := kind.version
  description := pick source.description kind.description
  usage := pick source.usage kind.usage
  caveats := pick source.caveats kind.caveats
  semanticSchema := source.semanticSchema.or kind.semanticSchema
  units := source.units.or kind.units
  samplingHintMs := source.samplingHintMs
  freshnessTtlMs := source.freshnessTtlMs
  location := source.location

namespace Config

/-- The descriptor that a declared kind name is resolved with: that of its first entry. -/
def kindNamed (cfg : Config) (name : String) : KindDescriptor :=
  match cfg.kinds.find? fun k => k.name = name with
  | none => syntheticKind name
  | some k => kindDescriptor k

/-- One row for each kind that a source lists. -/
def resolveDescriptors (cfg : Config) : List ResolvedRow :=
  cfg.sources.flatMap fun s => s.kinds.map fun name => resolve (sourceDescriptor s) (cfg.kindNamed name)

def buildSourceDescriptors (cfg : Config) : List SourceDescriptor := cfg.sources.map sourceDescriptor

def buildKindDescriptors (cfg : Config) : List KindDescriptor := cfg.kinds.map kindDescriptor

variable {cfg : Config}

@[simp] theorem kindNamed_kind (cfg : Config) (name : String) : (cfg.kindNamed name).kind = name := by
  unfold kindNamed
  split
  · rfl
  next k hk => simpa [kindDescriptor] using List.find?_some hk

theorem mem_resolveDescriptors {d : ResolvedRow} : d ∈ cfg.resolveDescriptors ↔
    ∃ s ∈ cfg.sources, ∃ name ∈ s.kinds, resolve (sourceDescriptor s) (cfg.kindNamed name) = d := by
  simp [resolveDescriptors]

theorem checkSources_ok {l : List SourceEntry} {seen : List String} (h : checkSources l seen = .ok ()) :
    (l.map (·.id)).Nodup ∧ ∀ s ∈ l, s.id ∉ seen := by
  induction l generalizing seen with
  | nil => simp
  | cons s l ih =>
    unfold checkSources at h
    split at h
    · cases h
    next hs =>
      obtain ⟨hnodup,hseen⟩ := ih h
      refine ⟨List.nodup_cons.mpr ⟨fun hmem => ?_,hnodup⟩,fun x hx => ?_⟩
      · obtain ⟨x,hx,hid⟩ := List.mem_map.mp hmem
        exact hseen x hx (by simp [hid])
      · rcases List.mem_cons.mp hx with rfl | hx
        · exact hs
        · exact fun hmem => hseen x hx (List.mem_cons_of_mem _ hmem)

/-- An accepted configuration declares each source once. -/
theorem nodup_of_check (h : cfg.check = .ok ()) : (cfg.sources.map (·.id)).Nodup := by
  obtain ⟨_,_,h⟩ := exists_of_bind h
  obtain ⟨_,hsources,_⟩ := exists_of_bind h
  exact (checkSources_ok hsources).1

theorem check_of_load {primary : Config} {overlays : List Config} (h : load primary overlays = .ok cfg) :
    cfg.check = .ok () := by
  unfold load at h
  generalize overlays.foldl merge primary = merged at h
  cases hcheck : merged.check with
  | error e => simp [hcheck,Except.map] at h
  | ok u =>
    simp only [hcheck,Except.map,Except.ok.injEq] at h
    rw [← h,hcheck]

end Config

example : parseDuration "30d" = .ok (.fromSecs 2592000) ∧
    parseDuration "10" = .error (.missingUnit "10") := by decide

end Percept
