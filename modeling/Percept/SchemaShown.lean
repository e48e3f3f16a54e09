import Percept.Config
import Percept.KindSplit

/-! The schema that `describe_sources` shows for a declared pair against the schema that the
normalizer applies to its unversioned events. The first entry of a kind is shown, the greatest
version is applied. -/
namespace Percept

/-- A compiled schema with the value it was compiled from. -/
structure CompiledSchema where
  value : Json
  isValid : Json → Bool

inductive SchemaError
  | invalidSourceSchema (sourceId detail : String)
  | invalidKindSchema (kind version detail : String)
  deriving DecidableEq

/-- `SchemaIndex`, with the values of the schemas. -/
structure SchemaTable where
  source : String → Option CompiledSchema
  kind : String × String → Option CompiledSchema
  latestVersion : String → Option String

namespace SchemaTable

def empty : SchemaTable := ⟨fun _ => none,fun _ => none,fun _ => none⟩

variable (compile : Json → Except String (Json → Bool))

def addSource (t : SchemaTable) (s : SourceDescriptor) : Except SchemaError SchemaTable :=
  match s.semanticSchema with
  | none => .ok t
  | some value => match compile value with
    | .error detail => .error (.invalidSourceSchema s.sourceId detail)
    | .ok isValid => .ok { t with source := Function.update t.source s.sourceId (some ⟨value,isValid⟩) }

def addKindSchema (t : SchemaTable) (k : KindDescriptor) : Except SchemaError SchemaTable :=
  match k.semanticSchema with
  | none => .ok t
  | some value => match compile value with
    | .error detail => .error (.invalidKindSchema k.kind k.version detail)
    | .ok isValid =>
      .ok { t with kind := Function.update t.kind (k.kind,k.version) (some ⟨value,isValid⟩) }

/-- Versions are compared as texts. -/
def trackVersion (t : SchemaTable) (k : KindDescriptor) : SchemaTable :=
  let insert : SchemaTable :=
    { t with latestVersion := Function.update t.latestVersion k.kind (some k.version) }
  match t.latestVersion k.kind with
  | none => insert
  | some prev => if prev < k.version then insert else t

def addKind (t : SchemaTable) (k : KindDescriptor) : Except SchemaError SchemaTable :=
  (addKindSchema compile t k).map fun t => t.trackVersion k

/-- `SchemaIndex::build`. -/
def build (sources : List SourceDescriptor) (kinds : List KindDescriptor) :
    Except SchemaError SchemaTable := do
  let t ← sources.foldlM (addSource compile) empty
  kinds.foldlM (addKind compile) t

/-- The schema that applies, and the version of the kind it belongs to. -/
def lookup (t : SchemaTable) (sourceId rawKind : String) : Option (CompiledSchema × Option String) :=
  match t.source sourceId with
  | some schema => some (schema,none)
  | none => match KindRef.fromStr rawKind with
    | .error _ => none
    | .ok kref => (kref.version.or (t.latestVersion kref.name)).bind fun version =>
        (t.kind (kref.name,version)).map fun schema => (schema,some version)

/-- What the normalizer keeps of the table. -/
def index (t : SchemaTable) : SchemaIndex where
  source s := (t.source s).map CompiledSchema.isValid
  kind k := (t.kind k).map CompiledSchema.isValid
  latestVersion := t.latestVersion

theorem lookup_index (t : SchemaTable) (sourceId rawKind : String) :
    t.index.lookup sourceId rawKind = (t.lookup sourceId rawKind).map fun x => x.1.isValid := by
  have hsource : t.index.source sourceId = (t.source sourceId).map CompiledSchema.isValid := rfl
  unfold SchemaIndex.lookup lookup
  rw [hsource]
  cases t.source sourceId with
  | some schema => rfl
  | none =>
    cases KindRef.fromStr rawKind with
    | error e => rfl
    | ok kref =>
      change (kref.version.or (t.latestVersion kref.name)).bind _ = _
      cases hversion : kref.version.or (t.latestVersion kref.name) with
      | none => simp [hversion]
      | some version => simp [hversion,index,Function.comp_def]

end SchemaTable

/-- The greatest version among the entries of a kind. -/
def greatestVersion (kinds : List KindDescriptor) (name : String) : Option String :=
  ((kinds.filter fun k => k.kind = name).map (·.version)).max?

/-- The schema of the last entry of a kind and version that has one. -/
def lastSchema (kinds : List KindDescriptor) (name version : String) : Option Json :=
  kinds.reverse.findSome? fun k => if k.kind = name ∧ k.version = version then k.semanticSchema else none

/-- Version and schema of the first entry of a kind, when it has a schema. -/
def shownSchema (kinds : List KindDescriptor) (name : String) : Option (String × Json) :=
  (kinds.find? fun k => k.kind = name).bind fun k => k.semanticSchema.map fun schema => (k.version,schema)

/-- The greatest version of a kind with its last schema; an empty name is not a kind. -/
def enforcedSchema (kinds : List KindDescriptor) (name : String) : Option (String × Json) :=
  if name = "" then none
  else (greatestVersion kinds name).bind fun version =>
    (lastSchema kinds name version).map fun schema => (version,schema)

namespace SchemaTable

variable {compile : Json → Except String (Json → Bool)} {t t' : SchemaTable}

theorem addSource_ok {s : SourceDescriptor} (h : addSource compile t s = .ok t') :
    t'.kind = t.kind ∧ t'.latestVersion = t.latestVersion ∧
      (∀ id ≠ s.sourceId, t'.source id = t.source id) ∧
      (s.semanticSchema = none → t'.source s.sourceId = t.source s.sourceId) ∧
      ∀ value, s.semanticSchema = some value → (t'.source s.sourceId).map (·.value) = some value := by
  unfold addSource at h
  split at h
  next hnone =>
    obtain rfl := Except.ok.inj h
    exact ⟨rfl,rfl,fun _ _ => rfl,fun _ => rfl,fun value hv => by simp [hnone] at hv⟩
  next value hvalue =>
    split at h
    · cases h
    next isValid _ =>
      obtain rfl := Except.ok.inj h
      refine ⟨rfl,rfl,fun id hid => Function.update_of_ne hid _ _,fun hnone => ?_,fun v hv => ?_⟩
      · rw [hvalue] at hnone
        cases hnone
      · rw [hvalue] at hv
        simp [Option.some.inj hv]

/-- With different ids each source has its own schema in the table. -/
theorem addSources_ok {sources : List SourceDescriptor} (hnodup : (sources.map (·.sourceId)).Nodup)
    (h : sources.foldlM (addSource compile) empty = .ok t) :
    t.kind = empty.kind ∧ t.latestVersion = empty.latestVersion ∧
      (∀ s ∈ sources, (t.source s.sourceId).map (·.value) = s.semanticSchema) ∧
      ∀ id, id ∉ sources.map (·.sourceId) → t.source id = none := by
  induction sources using List.reverseRecOn generalizing t with
  | nil =>
    obtain rfl := Except.ok.inj h
    exact ⟨rfl,rfl,by simp,fun _ _ => rfl⟩
  | append_singleton sources s ih =>
    rw [List.map_append,List.map_singleton,List.nodup_append] at hnodup
    obtain ⟨hnodup,-,hdisjoint⟩ := hnodup
    rw [List.foldlM_append] at h
    obtain ⟨t₁,hinit,h⟩ := exists_of_bind h
    rw [List.foldlM_cons] at h
    obtain ⟨t₂,hadd,h⟩ := exists_of_bind h
    obtain rfl := Except.ok.inj h
    obtain ⟨hkind,hlatest,hsources,hother⟩ := ih hnodup hinit
    obtain ⟨hkind',hlatest',hframe,hnone,hsome⟩ := addSource_ok hadd
    have hnew : s.sourceId ∉ sources.map (·.sourceId) := fun hmem =>
      hdisjoint _ hmem _ (List.mem_singleton_self _) rfl
    refine ⟨hkind'.trans hkind,hlatest'.trans hlatest,fun x hx => ?_,fun id hid => ?_⟩
    · rcases List.mem_append.mp hx with hx | hx
      · have hne : x.sourceId ≠ s.sourceId := fun heq =>
          hnew (heq ▸ List.mem_map_of_mem hx)
        rw [hframe _ hne]
        exact hsources x hx
      · obtain rfl := List.mem_singleton.mp hx
        cases hschema : x.semanticSchema with
        | none => rw [hnone hschema,hother _ hnew,Option.map_none]
        | some value => exact hsome value hschema
    · simp only [List.map_append,List.map_singleton,List.mem_append,List.mem_singleton,not_or] at hid
      rw [hframe id hid.2]
      exact hother id hid.1

theorem lastSchema_concat (kinds : List KindDescriptor) (k : KindDescriptor) (name version : String) :
    lastSchema (kinds ++ [k]) name version =
      (if k.kind = name ∧ k.version = version then k.semanticSchema else none).or
        (lastSchema kinds name version) := by
  rw [lastSchema,List.reverse_append,List.reverse_singleton,List.singleton_append,
    List.findSome?_cons]
  cases (if k.kind = name ∧ k.version = version then k.semanticSchema else none) <;> rfl

theorem max?_concat {α : Type} [Max α] (l : List α) (a : α) :
    (l ++ [a]).max? = some (l.max?.elim a fun b => max b a) := by
  cases l with
  | nil => rfl
  | cons b l =>
    simp only [List.cons_append,List.max?_cons',List.foldl_append,List.foldl_cons,List.foldl_nil,
      Option.elim_some]

theorem greatestVersion_concat (kinds : List KindDescriptor) (k : KindDescriptor) (name : String) :
    greatestVersion (kinds ++ [k]) name =
      if k.kind = name then
        some ((greatestVersion kinds name).elim k.version fun prev => max prev k.version)
      else greatestVersion kinds name := by
  by_cases hk : k.kind = name
  · rw [if_pos hk,greatestVersion,List.filter_append,List.map_append,
      List.filter_cons_of_pos (by simpa using hk),List.filter_nil,List.map_singleton,max?_concat]
    rfl
  · simp [greatestVersion,hk]

theorem trackVersion_latest (t : SchemaTable) (k : KindDescriptor) (name : String) :
    (t.trackVersion k).latestVersion name =
      if k.kind = name then
        some ((t.latestVersion name).elim k.version fun prev => max prev k.version)
      else t.latestVersion name := by
  unfold trackVersion
  by_cases hk : k.kind = name
  · subst hk
    rw [if_pos rfl]
    cases hprev : t.latestVersion k.kind with
    | none => exact Function.update_self _ _ _
    | some prev =>
      by_cases hlt : prev < k.version
      · simp only [if_pos hlt,Option.elim_some,max_eq_right hlt.le]
        exact Function.update_self _ _ _
      · simp only [if_neg hlt,Option.elim_some,max_eq_left (not_lt.mp hlt)]
        exact hprev
  · rw [if_neg hk]
    have hother := Function.update_of_ne (Ne.symm hk) (some k.version) t.latestVersion
    cases t.latestVersion k.kind with
    | none => exact hother
    | some prev =>
      simp only
      split
      · exact hother
      · rfl

theorem trackVersion_frame (t : SchemaTable) (k : KindDescriptor) :
    (t.trackVersion k).source = t.source ∧ (t.trackVersion k).kind = t.kind := by
  unfold trackVersion
  cases t.latestVersion k.kind with
  | none => exact ⟨rfl,rfl⟩
  | some prev =>
    simp only
    split <;> exact ⟨rfl,rfl⟩

theorem addKindSchema_ok {k : KindDescriptor} (h : addKindSchema compile t k = .ok t') :
    t'.source = t.source ∧ t'.latestVersion = t.latestVersion ∧ ∀ name version,
      (t'.kind (name,version)).map (·.value) =
        (if k.kind = name ∧ k.version = version then k.semanticSchema else none).or
          ((t.kind (name,version)).map (·.value)) := by
  unfold addKindSchema at h
  split at h
  next hnone =>
    obtain rfl := Except.ok.inj h
    refine ⟨rfl,rfl,fun name version => ?_⟩
    rw [hnone]
    split <;> rfl
  next value hvalue =>
    split at h
    · cases h
    next isValid _ =>
      obtain rfl := Except.ok.inj h
      refine ⟨rfl,rfl,fun name version => ?_⟩
      by_cases hkey : k.kind = name ∧ k.version = version
      · obtain ⟨rfl,rfl⟩ := hkey
        simp [hvalue]
      · have hne : (name,version) ≠ (k.kind,k.version) := by
          rintro heq
          obtain ⟨rfl,rfl⟩ := Prod.mk.inj heq
          exact hkey ⟨rfl,rfl⟩
        simp [hkey,Function.update_of_ne hne]

/-- The kinds of a table hold the last schema of each version, and the greatest version. -/
theorem addKinds_ok {kinds : List KindDescriptor} (hkind : t.kind = empty.kind)
    (hlatest : t.latestVersion = empty.latestVersion)
    (h : kinds.foldlM (addKind compile) t = .ok t') :
    t'.source = t.source ∧ (∀ name, t'.latestVersion name = greatestVersion kinds name) ∧
      ∀ name version, (t'.kind (name,version)).map (·.value) = lastSchema kinds name version := by
  induction kinds using List.reverseRecOn generalizing t' with
  | nil =>
    obtain rfl := Except.ok.inj h
    exact ⟨rfl,fun name => by rw [hlatest]; rfl,fun name version => by rw [hkind]; rfl⟩
  | append_singleton kinds k ih =>
    rw [List.foldlM_append] at h
    obtain ⟨t₁,hinit,h⟩ := exists_of_bind h
    rw [List.foldlM_cons] at h
    obtain ⟨t₂,hadd,h⟩ := exists_of_bind h
    obtain rfl := Except.ok.inj h
    obtain ⟨hsource,hversion,hvalue⟩ := ih hinit
    unfold addKind at hadd
    cases hschema : addKindSchema compile t₁ k with
    | error e =>
      rw [hschema] at hadd
      cases hadd
    | ok t₃ =>
      rw [hschema] at hadd
      obtain rfl := Except.ok.inj hadd
      obtain ⟨hsource',hlatest',hvalue'⟩ := addKindSchema_ok hschema
      have hframe := trackVersion_frame t₃ k
      refine ⟨hframe.1.trans (hsource'.trans hsource),fun name => ?_,fun name version => ?_⟩
      · rw [trackVersion_latest,hlatest',hversion,greatestVersion_concat]
      · rw [hframe.2,hvalue',hvalue,lastSchema_concat]

/-- A bare name resolves to the greatest version with its last schema. -/
theorem lookup_bare {kinds : List KindDescriptor} {sourceId name : String}
    (hsource : t.source sourceId = none) (hbare : '@' ∉ name.toList)
    (hversion : ∀ name, t.latestVersion name = greatestVersion kinds name)
    (hvalue : ∀ name version, (t.kind (name,version)).map (·.value) = lastSchema kinds name version) :
    (t.lookup sourceId name).map (fun x => (x.2,x.1.value)) =
      (enforcedSchema kinds name).map fun x => (some x.1,x.2) := by
  unfold lookup enforcedSchema
  rw [hsource]
  simp only
  by_cases hname : name = ""
  · have hparse : KindRef.fromStr name = .error .emptyString := by rw [hname]; rfl
    rw [hparse,if_pos hname]
    rfl
  · have hparse : KindRef.fromStr name = .ok ⟨name,none⟩ :=
      KindRef.fromStr_eq_ok_iff.mpr ⟨⟨hname,hbare,(Option.some_ne_none "").symm⟩,rfl⟩
    rw [hparse,if_neg hname]
    simp only [Option.none_or,hversion]
    cases greatestVersion kinds name with
    | none => rfl
    | some version =>
      simp only [Option.bind_some,← hvalue,Option.map_map]
      cases t.kind (name,version) <;> rfl

end SchemaTable

/-- The row shows the schema that applies to a bare event of its pair, and the version it is
taken from; a schema of the source has none. -/
def ShowsEnforced (t : SchemaTable) (d : ResolvedRow) : Prop :=
  match (t.lookup d.sourceId d.kind).map fun x => (x.2,x.1.value) with
  | none => d.semanticSchema = none
  | some (none,schema) => d.semanticSchema = some schema
  | some (some version,schema) => d.semanticSchema = some schema ∧ d.kindVersion = version

/-- The source has a schema of its own. -/
def SourceOverrides (cfg : Config) (sourceId : String) : Prop :=
  ∃ s ∈ cfg.sources, s.id = sourceId ∧ s.semanticSchema.isSome

/-- What the first entry of the kind has is shown. -/
theorem shownSchema_eq (cfg : Config) (name : String) :
    shownSchema cfg.buildKindDescriptors name =
      (cfg.kindNamed name).semanticSchema.map fun schema => ((cfg.kindNamed name).version,schema) := by
  unfold shownSchema Config.buildKindDescriptors Config.kindNamed
  rw [List.find?_map]
  change ((cfg.kinds.find? fun k => k.name = name).map kindDescriptor).bind _ = _
  cases cfg.kinds.find? fun k => k.name = name <;> rfl

/-- A schema of the source is shown as it is. -/
theorem showsEnforced_of_source {t : SchemaTable} {d : ResolvedRow} {c : CompiledSchema}
    (hsource : t.source d.sourceId = some c) (hshown : d.semanticSchema = some c.value) :
    ShowsEnforced t d := by
  have hlookup : t.lookup d.sourceId d.kind = some (c,none) := by
    unfold SchemaTable.lookup
    rw [hsource]
  unfold ShowsEnforced
  rw [hlookup]
  exact hshown

/-- Otherwise version and schema of the row are compared with those that apply. -/
theorem showsEnforced_iff_of_lookup {t : SchemaTable} {d : ResolvedRow} {applied : Option (String × Json)}
    (hlookup : ((t.lookup d.sourceId d.kind).map fun x => (x.2,x.1.value)) =
      applied.map fun x => (some x.1,x.2)) :
    ShowsEnforced t d ↔ (d.semanticSchema.map fun schema => (d.kindVersion,schema)) = applied := by
  unfold ShowsEnforced
  rw [hlookup]
  cases applied with
  | none => simp
  | some x =>
    cases d.semanticSchema with
    | none => simp
    | some shown => simp [Prod.ext_iff,and_comm]

/-- A declared pair shows the schema that is enforced exactly when its source has its own, or the
first entry of the kind agrees with the greatest version. -/
theorem schema_shown_iff {compile : Json → Except String (Json → Bool)} {primary : Config}
    {overlays : List Config} {cfg : Config} (hload : Config.load primary overlays = .ok cfg)
    {t : SchemaTable}
    (hbuild : SchemaTable.build compile cfg.buildSourceDescriptors cfg.buildKindDescriptors = .ok t)
    {d : ResolvedRow} (hd : d ∈ cfg.resolveDescriptors) (hbare : '@' ∉ d.kind.toList) :
    ShowsEnforced t d ↔ SourceOverrides cfg d.sourceId ∨
      shownSchema cfg.buildKindDescriptors d.kind = enforcedSchema cfg.buildKindDescriptors d.kind := by
  have hnodup := Config.nodup_of_check (Config.check_of_load hload)
  obtain ⟨t₁,hsources,hkinds⟩ := exists_of_bind hbuild
  have hids : (cfg.buildSourceDescriptors.map (·.sourceId)) = cfg.sources.map (·.id) := by
    simp [Config.buildSourceDescriptors,sourceDescriptor]
  obtain ⟨hkind,hlatest,hown,-⟩ := SchemaTable.addSources_ok (hids ▸ hnodup) hsources
  obtain ⟨hsource,hversion,hvalue⟩ := SchemaTable.addKinds_ok hkind hlatest hkinds
  obtain ⟨s,hs,name,hname,rfl⟩ := Config.mem_resolveDescriptors.mp hd
  have hname' : (resolve (sourceDescriptor s) (cfg.kindNamed name)).kind = name := cfg.kindNamed_kind name
  have hthis : (t.source s.id).map (·.value) = s.semanticSchema := by
    rw [hsource]
    exact hown (sourceDescriptor s) (List.mem_map_of_mem hs)
  have hoverrides : SourceOverrides cfg s.id ↔ s.semanticSchema.isSome := by
    constructor
    · rintro ⟨s',hs',hid,hsome⟩
      rwa [← List.inj_on_of_nodup_map hnodup hs' hs hid]
    · exact fun hsome => ⟨s,hs,rfl,hsome⟩
  have hrow : (resolve (sourceDescriptor s) (cfg.kindNamed name)).semanticSchema =
      s.semanticSchema.or (cfg.kindNamed name).semanticSchema := rfl
  change ShowsEnforced t _ ↔ SourceOverrides cfg s.id ∨ _
  rw [hname'] at hbare ⊢
  rw [hoverrides]
  cases hschema : s.semanticSchema with
  | some schema =>
    rw [hschema] at hthis hrow
    obtain ⟨c,hc,rfl⟩ := Option.map_eq_some_iff.mp hthis
    exact iff_of_true (showsEnforced_of_source hc hrow) (.inl rfl)
  | none =>
    rw [hschema,Option.map_eq_none_iff] at hthis
    rw [hschema,Option.none_or] at hrow
    have hlookup := t.lookup_bare hthis hbare hversion hvalue
    rw [← hname'] at hlookup
    rw [showsEnforced_iff_of_lookup hlookup,hrow,hname',shownSchema_eq]
    simp [resolve]

def typeSchema (type : String) : Json := .object [("type",.string type)]

/-- A schema compiler, as far as these schemas need it. -/
def compileType : Json → Except String (Json → Bool)
  | .object [("type",.string "object")] => .ok fun v => match v with
    | .object _ => true
    | _ => false
  | .object [("type",.string "string")] => .ok fun v => match v with
    | .string _ => true
    | _ => false
  | _ => .error "unsupported schema"

/-- One camera and the versions of its kind, each with its schema. -/
def versionedConfig (versions : List (String × Json)) : Config where
  sources := [{ id := "cam", kinds := ["frame"] }]
  kinds := versions.map fun x => { name := "frame", version := some x.1, semanticSchema := some x.2 }

def versionedRow (versions : List (String × Json)) : ResolvedRow :=
  resolve (sourceDescriptor { id := "cam", kinds := ["frame"] })
    ((versionedConfig versions).kindNamed "frame")

/-- A kind with one version, its schema in a second file. -/
theorem schema_shown_one_version : ∃ t,
    SchemaTable.build compileType (versionedConfig [("v1",typeSchema "object")]).buildSourceDescriptors
        (versionedConfig [("v1",typeSchema "object")]).buildKindDescriptors = .ok t ∧
      ShowsEnforced t (versionedRow [("v1",typeSchema "object")]) := by
  have hload : Config.load { sources := [{ id := "cam", kinds := ["frame"] }] }
      [{ kinds := [{ name := "frame", version := some "v1", semanticSchema := some (typeSchema "object") }] }] =
        .ok (versionedConfig [("v1",typeSchema "object")]) := rfl
  obtain ⟨t,hbuild⟩ : ∃ t,
      SchemaTable.build compileType (versionedConfig [("v1",typeSchema "object")]).buildSourceDescriptors
        (versionedConfig [("v1",typeSchema "object")]).buildKindDescriptors = .ok t := ⟨_,rfl⟩
  exact ⟨t,hbuild,(schema_shown_iff hload hbuild (List.mem_singleton_self _) (by decide)).mpr (Or.inr rfl)⟩

/-- With two versions the first entry is shown and the second one enforced. -/
theorem schema_shown_fails : ∃ t,
    let cfg := versionedConfig [("v1",typeSchema "object"),("v2",typeSchema "string")]
    let d := versionedRow [("v1",typeSchema "object"),("v2",typeSchema "string")]
    Config.load cfg [] = .ok cfg ∧
      SchemaTable.build compileType cfg.buildSourceDescriptors cfg.buildKindDescriptors = .ok t ∧
      d ∈ cfg.resolveDescriptors ∧ '@' ∉ d.kind.toList ∧ ¬ShowsEnforced t d := by
  refine ⟨_,rfl,rfl,List.mem_singleton_self _,by decide,fun h => ?_⟩
  have hversion : "v1" = "v2" := h.2
  exact absurd hversion (by decide)

end Percept
