import Percept.SchemaShown
import Percept.Startup

/-! The documented resolution of a schema for any registry: the source's own schema, the schema of
the pinned version, and for a bare name that of the latest version, which is the greatest number.
The index keeps the greatest text. -/
namespace Percept

/-- The kind string pins a version. -/
def IsPinned (rawKind name version : String) : Prop :=
  rawKind = name ++ "@" ++ version ∧ '@' ∉ name.toList ∧ name ≠ "" ∧ version ≠ ""

def IsBare (rawKind : String) : Prop := '@' ∉ rawKind.toList ∧ rawKind ≠ ""

namespace KindRef

variable {rawKind name version : String}

theorem fromStr_pinned (h : IsPinned rawKind name version) :
    fromStr rawKind = .ok ⟨name,some version⟩ := by
  obtain ⟨rfl,hat,hname,hversion⟩ := h
  exact fromStr_eq_ok_iff.mpr ⟨⟨hname,hat,fun heq => hversion (Option.some.inj heq)⟩,rfl⟩

theorem fromStr_bare (h : IsBare rawKind) : fromStr rawKind = .ok ⟨rawKind,none⟩ :=
  fromStr_eq_ok_iff.mpr ⟨⟨h.2,h.1,(Option.some_ne_none "").symm⟩,rfl⟩

theorem fromStr_neither (hpinned : ∀ name version, ¬IsPinned rawKind name version)
    (hbare : ¬IsBare rawKind) : ∃ e, fromStr rawKind = .error e := by
  cases hparse : fromStr rawKind with
  | error e => exact ⟨e,rfl⟩
  | ok r =>
    obtain ⟨⟨name,version⟩,⟨⟨hname,hat,hversion⟩,rfl⟩⟩ : ∃ r : KindRef, r.WellFormed ∧ r.display = rawKind :=
      ⟨r,fromStr_eq_ok_iff.mp hparse⟩
    cases version with
    | none => exact absurd ⟨hat,hname⟩ hbare
    | some v => exact absurd ⟨rfl,hat,hname,fun heq => hversion (congrArg some heq)⟩ (hpinned name v)

end KindRef

/-- The number of a version `v<decimal>`. -/
def versionNumber (version : String) : ℕ := decimal version.toList.tail

section Registry

variable (sources : List SourceDescriptor) (kinds : List KindDescriptor) (sourceId name : String)

def OwnSchema (schema : Json) : Prop :=
  ∃ s ∈ sources, s.sourceId = sourceId ∧ s.semanticSchema = some schema

def VersionSchema (version : String) (schema : Json) : Prop :=
  ∃ k ∈ kinds, k.kind = name ∧ k.version = version ∧ k.semanticSchema = some schema

/-- A registered version of the kind with the greatest number. -/
def IsLatest (k : KindDescriptor) : Prop :=
  k ∈ kinds ∧ k.kind = name ∧
    ∀ x ∈ kinds, x.kind = name → versionNumber x.version ≤ versionNumber k.version

/-- A registered version of the kind with the greatest text. -/
def IsTextLatest (k : KindDescriptor) : Prop :=
  k ∈ kinds ∧ k.kind = name ∧ ∀ x ∈ kinds, x.kind = name → x.version ≤ k.version

/-- What the documentation says of a lookup and its result. -/
structure DocumentedSchema (rawKind : String) (result : Option Json) : Prop where
  source : ∀ schema, OwnSchema sources sourceId schema → result = some schema
  pinned : (∀ schema, ¬OwnSchema sources sourceId schema) → ∀ name version,
    IsPinned rawKind name version → ∀ schema, result = some schema ↔ VersionSchema kinds name version schema
  bare : (∀ schema, ¬OwnSchema sources sourceId schema) → IsBare rawKind →
    (∀ k ∈ kinds, k.kind ≠ rawKind) ∧ result = none ∨
      ∃ k, IsLatest kinds rawKind k ∧ result = k.semanticSchema
  neither : (∀ schema, ¬OwnSchema sources sourceId schema) → ¬IsBare rawKind →
    (∀ name version, ¬IsPinned rawKind name version) → result = none

end Registry

section Tables

variable {sources : List SourceDescriptor} {kinds : List KindDescriptor} {sourceId name : String}

theorem greatestVersion_eq_some_iff {version : String} : greatestVersion kinds name = some version ↔
    ∃ k, IsTextLatest kinds name k ∧ k.version = version := by
  unfold greatestVersion
  rw [List.max?_eq_some_iff]
  constructor
  · rintro ⟨hmem,hmax⟩
    obtain ⟨k,hk,rfl⟩ := List.mem_map.mp hmem
    obtain ⟨hk,hname⟩ := List.mem_filter.mp hk
    refine ⟨k,⟨hk,of_decide_eq_true hname,fun x hx hxname => ?_⟩,rfl⟩
    exact hmax _ (List.mem_map_of_mem (List.mem_filter.mpr ⟨hx,decide_eq_true hxname⟩))
  · rintro ⟨k,⟨hk,hname,hmax⟩,rfl⟩
    refine ⟨List.mem_map_of_mem (List.mem_filter.mpr ⟨hk,decide_eq_true hname⟩),fun version hv => ?_⟩
    obtain ⟨x,hx,rfl⟩ := List.mem_map.mp hv
    obtain ⟨hx,hxname⟩ := List.mem_filter.mp hx
    exact hmax x hx (of_decide_eq_true hxname)

theorem greatestVersion_eq_none_iff : greatestVersion kinds name = none ↔ ∀ k ∈ kinds, k.kind ≠ name := by
  simp [greatestVersion]

theorem lastSchema_eq_some_iff (hnodup : (kinds.map fun k => (k.kind,k.version)).Nodup) {version : String}
    {schema : Json} :
    lastSchema kinds name version = some schema ↔ VersionSchema kinds name version schema := by
  unfold lastSchema
  constructor
  · intro h
    obtain ⟨k,hk,hschema⟩ := List.exists_of_findSome?_eq_some h
    split_ifs at hschema with hkey
    exact ⟨k,List.mem_reverse.mp hk,hkey.1,hkey.2,hschema⟩
  · rintro ⟨k,hk,rfl,rfl,hschema⟩
    obtain ⟨pre,post,rfl⟩ := List.append_of_mem hk
    rw [List.map_append,List.map_cons,List.nodup_append,List.nodup_cons] at hnodup
    obtain ⟨-,⟨hpost,-⟩,-⟩ := hnodup
    rw [List.reverse_append,List.reverse_cons,List.append_assoc,List.findSome?_append]
    have hnone : (post.reverse.findSome? fun x =>
        if x.kind = k.kind ∧ x.version = k.version then x.semanticSchema else none) = none := by
      refine List.findSome?_eq_none_iff.mpr fun x hx => if_neg fun hkey => hpost ?_
      exact List.mem_map.mpr ⟨x,List.mem_reverse.mp hx,Prod.ext hkey.1 hkey.2⟩
    rw [hnone,Option.none_or,List.singleton_append,List.findSome?_cons,if_pos ⟨rfl,rfl⟩,hschema]

end Tables

/-- A loop whose steps succeed under an invariant succeeds. -/
theorem foldlM_ok {ε α β : Type} {f : β → α → Except ε β} {inv : β → Prop} {l : List α}
    (hstep : ∀ b, ∀ a ∈ l, inv b → ∃ b', f b a = .ok b' ∧ inv b') {b : β} (hb : inv b) :
    ∃ b', l.foldlM f b = .ok b' ∧ inv b' := by
  induction l generalizing b with
  | nil => exact ⟨b,rfl,hb⟩
  | cons a l ih =>
    obtain ⟨b₁,hfirst,hb₁⟩ := hstep b a (List.mem_cons_self ..) hb
    obtain ⟨b₂,hrest,hb₂⟩ := ih (fun b x hx => hstep b x (List.mem_cons_of_mem _ hx)) hb₁
    refine ⟨b₂,?_,hb₂⟩
    rw [List.foldlM_cons,hfirst]
    exact hrest

namespace SchemaTable

variable {compile : Json → Except String (Json → Bool)} {t t' : SchemaTable}
  {sources sources' : List SourceDescriptor} {kinds kinds' : List KindDescriptor}

/-- Every schema of the table is what its value compiles to. -/
structure Compiled (compile : Json → Except String (Json → Bool)) (t : SchemaTable) : Prop where
  source : ∀ id c, t.source id = some c → compile c.value = .ok c.isValid
  kind : ∀ key c, t.kind key = some c → compile c.value = .ok c.isValid

theorem empty_compiled : Compiled compile empty := by
  constructor <;> intro _ _ hc <;> cases hc

theorem compiled_update {ι : Type} [DecidableEq ι] {f : ι → Option CompiledSchema}
    (h : ∀ i c, f i = some c → compile c.value = .ok c.isValid) {schema : Json} {isValid : Json → Bool}
    (hok : compile schema = .ok isValid) (a : ι) :
    ∀ i c, Function.update f a (some ⟨schema,isValid⟩) i = some c → compile c.value = .ok c.isValid := by
  intro i c hc
  by_cases hi : i = a
  · subst hi
    rw [Function.update_self] at hc
    obtain rfl := Option.some.inj hc
    exact hok
  · rw [Function.update_of_ne hi] at hc
    exact h i c hc

theorem addSource_compiled (h : Compiled compile t) {s : SourceDescriptor}
    (hs : ∀ schema, s.semanticSchema = some schema → ∃ isValid, compile schema = .ok isValid) :
    ∃ t', addSource compile t s = .ok t' ∧ Compiled compile t' := by
  cases hschema : s.semanticSchema with
  | none => exact ⟨t,by rw [addSource,hschema],h⟩
  | some schema =>
    obtain ⟨isValid,hok⟩ := hs schema hschema
    exact ⟨{ t with source := Function.update t.source s.sourceId (some ⟨schema,isValid⟩) },
      by simp only [addSource,hschema,hok],compiled_update h.source hok _,h.kind⟩

theorem addKind_compiled (h : Compiled compile t) {k : KindDescriptor}
    (hk : ∀ schema, k.semanticSchema = some schema → ∃ isValid, compile schema = .ok isValid) :
    ∃ t', addKind compile t k = .ok t' ∧ Compiled compile t' := by
  obtain ⟨t₁,hadd,h₁⟩ : ∃ t₁, addKindSchema compile t k = .ok t₁ ∧ Compiled compile t₁ := by
    cases hschema : k.semanticSchema with
    | none => exact ⟨t,by rw [addKindSchema,hschema],h⟩
    | some schema =>
      obtain ⟨isValid,hok⟩ := hk schema hschema
      exact ⟨{ t with kind := Function.update t.kind (k.kind,k.version) (some ⟨schema,isValid⟩) },
        by simp only [addKindSchema,hschema,hok],h.source,compiled_update h.kind hok _⟩
  obtain ⟨hsource,hkind⟩ := trackVersion_frame t₁ k
  refine ⟨t₁.trackVersion k,by rw [addKind,hadd]; rfl,⟨?_,?_⟩⟩
  · rw [hsource]
    exact h₁.source
  · rw [hkind]
    exact h₁.kind

/-- The table of a registry. -/
structure Built (compile : Json → Except String (Json → Bool)) (sources : List SourceDescriptor)
    (kinds : List KindDescriptor) (t : SchemaTable) : Prop where
  source : ∀ id schema, (t.source id).map (·.value) = some schema ↔ OwnSchema sources id schema
  kind : ∀ name version schema,
    (t.kind (name,version)).map (·.value) = some schema ↔ VersionSchema kinds name version schema
  latest : ∀ name version, t.latestVersion name = some version ↔
    ∃ k, IsTextLatest kinds name k ∧ k.version = version
  compiled : Compiled compile t

/-- Different ids, different versions, and schemas that compile. -/
structure WellFormed (compile : Json → Except String (Json → Bool)) (sources : List SourceDescriptor)
    (kinds : List KindDescriptor) : Prop where
  ids : (sources.map (·.sourceId)).Nodup
  versions : (kinds.map fun k => (k.kind,k.version)).Nodup
  sources : ∀ s ∈ sources, ∀ schema, s.semanticSchema = some schema → ∃ isValid, compile schema = .ok isValid
  kinds : ∀ k ∈ kinds, ∀ schema, k.semanticSchema = some schema → ∃ isValid, compile schema = .ok isValid

theorem WellFormed.build (h : WellFormed compile sources kinds) :
    ∃ t, build compile sources kinds = .ok t ∧ Built compile sources kinds t := by
  obtain ⟨t₁,hsources,h₁⟩ := foldlM_ok (f := addSource compile) (b := empty)
    (fun t s hs ht => addSource_compiled ht (h.sources s hs))
    empty_compiled
  obtain ⟨t,hkinds,hcompiled⟩ := foldlM_ok (f := addKind compile) (fun t k hk ht =>
    addKind_compiled ht (h.kinds k hk)) h₁
  obtain ⟨hkind,hlatest,hown,hother⟩ := addSources_ok h.ids hsources
  obtain ⟨hsource,hversion,hvalue⟩ := addKinds_ok hkind hlatest hkinds
  refine ⟨t,by rw [SchemaTable.build,hsources]; exact hkinds,⟨fun id schema => ?_,
    fun name version schema => ?_,fun name version => ?_,hcompiled⟩⟩
  · rw [hsource]
    constructor
    · intro hid
      by_cases hmem : id ∈ sources.map (·.sourceId)
      · obtain ⟨s,hs,rfl⟩ := List.mem_map.mp hmem
        exact ⟨s,hs,rfl,(hown s hs).symm.trans hid⟩
      · rw [hother id hmem] at hid
        cases hid
    · rintro ⟨s,hs,rfl,hschema⟩
      exact (hown s hs).trans hschema
  · rw [hvalue,lastSchema_eq_some_iff h.versions]
  · rw [hversion,greatestVersion_eq_some_iff]

/-- A compiled schema is determined by its value. -/
theorem option_eq_of_value {x y : Option CompiledSchema}
    (hx : ∀ c, x = some c → compile c.value = .ok c.isValid)
    (hy : ∀ c, y = some c → compile c.value = .ok c.isValid)
    (h : ∀ schema, x.map (·.value) = some schema ↔ y.map (·.value) = some schema) : x = y := by
  have hmap : x.map (·.value) = y.map (·.value) := Option.ext h
  cases x with
  | none => exact (Option.map_eq_none_iff.mp hmap.symm).symm
  | some c =>
    obtain ⟨d,hd,hvalue⟩ := Option.map_eq_some_iff.mp hmap.symm
    have hvalid := (hx c rfl).symm.trans (hvalue ▸ hy d hd)
    obtain ⟨value,isValid⟩ := c
    obtain ⟨value',isValid'⟩ := d
    obtain rfl : value' = value := hvalue
    obtain rfl : isValid = isValid' := Except.ok.inj hvalid
    exact hd.symm

/-- The order of the descriptors does not matter. -/
theorem Built.eq_of_perm (h : Built compile sources kinds t) (h' : Built compile sources' kinds' t')
    (hsources : sources'.Perm sources) (hkinds : kinds'.Perm kinds) : t' = t := by
  have hsource : t'.source = t.source := funext fun id =>
    option_eq_of_value (h'.compiled.source id) (h.compiled.source id) fun schema => by
      rw [h'.source,h.source]
      simp only [OwnSchema,hsources.mem_iff]
  have hkind : t'.kind = t.kind := funext fun key =>
    option_eq_of_value (h'.compiled.kind key) (h.compiled.kind key) fun schema => by
      rw [h'.kind,h.kind]
      simp only [VersionSchema,hkinds.mem_iff]
  have hlatest : t'.latestVersion = t.latestVersion := funext fun name => Option.ext fun version => by
    rw [h'.latest,h.latest]
    simp only [IsTextLatest,hkinds.mem_iff]
  obtain ⟨_,_,_⟩ := t
  obtain ⟨_,_,_⟩ := t'
  exact mk.injEq .. |>.mpr ⟨hsource,hkind,hlatest⟩

theorem WellFormed.perm (h : WellFormed compile sources kinds) (hsources : sources'.Perm sources)
    (hkinds : kinds'.Perm kinds) : WellFormed compile sources' kinds' where
  ids := (hsources.map _).nodup_iff.mpr h.ids
  versions := (hkinds.map _).nodup_iff.mpr h.versions
  sources s hs := h.sources s (hsources.mem_iff.mp hs)
  kinds k hk := h.kinds k (hkinds.mem_iff.mp hk)

section Lookup

variable {sourceId rawKind : String} (h : Built compile sources kinds t)
include h

theorem Built.lookup_own {schema : Json} (hown : OwnSchema sources sourceId schema) :
    (t.lookup sourceId rawKind).map (·.1.value) = some schema := by
  obtain ⟨c,hc,rfl⟩ := Option.map_eq_some_iff.mp ((h.source sourceId schema).mpr hown)
  unfold lookup
  rw [hc]
  rfl

theorem Built.source_none (hnone : ∀ schema, ¬OwnSchema sources sourceId schema) :
    t.source sourceId = none := by
  by_contra hsome
  obtain ⟨c,hc⟩ := Option.ne_none_iff_exists'.mp hsome
  exact hnone c.value ((h.source sourceId c.value).mp (by rw [hc]; rfl))

theorem Built.lookup_pinned (hnone : ∀ schema, ¬OwnSchema sources sourceId schema)
    {name version : String} (hpin : IsPinned rawKind name version) (schema : Json) :
    (t.lookup sourceId rawKind).map (·.1.value) = some schema ↔ VersionSchema kinds name version schema := by
  unfold lookup
  rw [h.source_none hnone,KindRef.fromStr_pinned hpin,← h.kind]
  simp [Function.comp_def]

/-- A bare name has the schema of its greatest text. -/
theorem Built.lookup_bare (hversions : (kinds.map fun k => (k.kind,k.version)).Nodup)
    (hnone : ∀ schema, ¬OwnSchema sources sourceId schema) (hbare : IsBare rawKind)
    {k : KindDescriptor} (hk : IsTextLatest kinds rawKind k) :
    (t.lookup sourceId rawKind).map (·.1.value) = k.semanticSchema := by
  have hlatest := (h.latest rawKind k.version).mpr ⟨k,hk,rfl⟩
  have hkind : (t.kind (rawKind,k.version)).map (·.value) = k.semanticSchema := by
    refine Option.ext fun schema => ?_
    rw [h.kind]
    constructor
    · rintro ⟨x,hx,hname,hversion,hschema⟩
      have hkey : (x.kind,x.version) = (k.kind,k.version) := Prod.ext (hname.trans hk.2.1.symm) hversion
      rwa [← List.inj_on_of_nodup_map hversions hx hk.1 hkey]
    · exact fun hschema => ⟨k,hk.1,hk.2.1,rfl,hschema⟩
  unfold lookup
  rw [h.source_none hnone,KindRef.fromStr_bare hbare,← hkind]
  simp [hlatest,Function.comp_def]

theorem Built.lookup_unregistered (hnone : ∀ schema, ¬OwnSchema sources sourceId schema)
    (hbare : IsBare rawKind) (hkinds : ∀ k ∈ kinds, k.kind ≠ rawKind) :
    (t.lookup sourceId rawKind).map (·.1.value) = none := by
  have hlatest : t.latestVersion rawKind = none := by
    by_contra hsome
    obtain ⟨version,hversion⟩ := Option.ne_none_iff_exists'.mp hsome
    obtain ⟨k,hk,-⟩ := (h.latest rawKind version).mp hversion
    exact hkinds k hk.1 hk.2.1
  unfold lookup
  rw [h.source_none hnone,KindRef.fromStr_bare hbare]
  simp [hlatest]

theorem Built.lookup_neither (hnone : ∀ schema, ¬OwnSchema sources sourceId schema)
    (hbare : ¬IsBare rawKind) (hpinned : ∀ name version, ¬IsPinned rawKind name version) :
    (t.lookup sourceId rawKind).map (·.1.value) = none := by
  obtain ⟨e,he⟩ := KindRef.fromStr_neither hpinned hbare
  unfold lookup
  rw [h.source_none hnone,he]
  rfl

end Lookup

end SchemaTable

theorem exists_isTextLatest {kinds : List KindDescriptor} {name : String}
    (h : ∃ k ∈ kinds, k.kind = name) : ∃ k, IsTextLatest kinds name k := by
  obtain ⟨version,hversion⟩ : ∃ version, greatestVersion kinds name = some version := by
    refine Option.ne_none_iff_exists'.mp fun hnone => ?_
    obtain ⟨k,hk,hname⟩ := h
    exact greatestVersion_eq_none_iff.mp hnone k hk hname
  obtain ⟨k,hk,-⟩ := greatestVersion_eq_some_iff.mp hversion
  exact ⟨k,hk⟩

/-- A lookup follows the documentation exactly when the source has a schema of its own, the kind
string is not a bare name, or the version with the greatest text is also the latest one or has the
schema of the latest. The order of the lists does not matter. -/
theorem schema_lookup_iff {compile : Json → Except String (Json → Bool)}
    {sources : List SourceDescriptor} {kinds : List KindDescriptor}
    (h : SchemaTable.WellFormed compile sources kinds) :
    ∃ t, SchemaTable.build compile sources kinds = .ok t ∧ ∀ sourceId rawKind,
      (DocumentedSchema sources kinds sourceId rawKind ((t.lookup sourceId rawKind).map (·.1.value)) ∧
        ∀ sources' kinds', sources'.Perm sources → kinds'.Perm kinds →
          ∃ t', SchemaTable.build compile sources' kinds' = .ok t' ∧
            t'.lookup sourceId rawKind = t.lookup sourceId rawKind) ↔
      (∃ schema, OwnSchema sources sourceId schema) ∨ ¬IsBare rawKind ∨
        ∀ k, IsTextLatest kinds rawKind k →
          ∃ x, IsLatest kinds rawKind x ∧ x.semanticSchema = k.semanticSchema := by
  obtain ⟨t,hbuild,ht⟩ := h.build
  refine ⟨t,hbuild,fun sourceId rawKind => ⟨?_,fun hwhen => ⟨?_,fun sources' kinds' hs hk => ?_⟩⟩⟩
  · rintro ⟨hdoc,-⟩
    by_cases hown : ∃ schema, OwnSchema sources sourceId schema
    · exact .inl hown
    · by_cases hbare : IsBare rawKind
      · refine .inr (.inr fun k hk => ?_)
        have hresult := ht.lookup_bare h.versions (not_exists.mp hown) hbare hk
        rcases hdoc.bare (not_exists.mp hown) hbare with ⟨hnone,-⟩ | ⟨x,hx,hschema⟩
        · exact absurd hk.2.1 (hnone k hk.1)
        · exact ⟨x,hx,hschema.symm.trans hresult⟩
      · exact .inr (.inl hbare)
  · refine ⟨fun schema hown => ht.lookup_own hown,fun hnone name version hpin schema =>
      ht.lookup_pinned hnone hpin schema,fun hnone hbare => ?_,fun hnone hbare hpinned =>
      ht.lookup_neither hnone hbare hpinned⟩
    by_cases hregistered : ∃ k ∈ kinds, k.kind = rawKind
    · obtain ⟨k,hk⟩ := exists_isTextLatest hregistered
      rcases hwhen with ⟨schema,hown⟩ | hnot | hlatest
      · exact absurd hown (hnone schema)
      · exact absurd hbare hnot
      · obtain ⟨x,hx,hschema⟩ := hlatest k hk
        exact .inr ⟨x,hx,(ht.lookup_bare h.versions hnone hbare hk).trans hschema.symm⟩
    · have hnone' : ∀ k ∈ kinds, k.kind ≠ rawKind := fun k hk hname => hregistered ⟨k,hk,hname⟩
      exact .inl ⟨hnone',ht.lookup_unregistered hnone hbare hnone'⟩
  · obtain ⟨t',hbuild',ht'⟩ := (h.perm hs hk).build
    exact ⟨t',hbuild',by rw [ht.eq_of_perm ht' hs hk]⟩

theorem foldl_decimal (l : List Char) (n : ℕ) :
    l.foldl (fun n c => 10*n+(c.toNat- '0'.toNat)) n = n*10^l.length+decimal l := by
  induction l generalizing n with
  | nil => simp [decimal]
  | cons c l ih =>
    rw [decimal,List.foldl_cons,List.foldl_cons,ih,ih (10*0+_),List.length_cons,pow_succ]
    ring

theorem decimal_cons (c : Char) (l : List Char) :
    decimal (c::l) = (c.toNat- '0'.toNat)*10^l.length+decimal l := by
  rw [decimal,List.foldl_cons,foldl_decimal,mul_zero,zero_add]

theorem decimal_lt {l : List Char} (h : ∀ c ∈ l, c.isDigit = true) : decimal l < 10^l.length := by
  induction l with
  | nil => decide
  | cons c l ih =>
    have hc : '0'.toNat ≤ c.toNat ∧ c.toNat ≤ 57 := Char.isDigit_iff_toNat.mp (h c (by simp))
    have hl := ih fun x hx => h x (by simp [hx])
    have hzero : '0'.toNat = 48 := by decide
    have hdigit : (c.toNat- '0'.toNat)*10^l.length ≤ 9*10^l.length := Nat.mul_le_mul_right _ (by omega)
    rw [decimal_cons,List.length_cons,pow_succ]
    omega

/-- Digits of one length are ordered as their numbers are. -/
theorem lt_of_decimal_lt {a b : List Char} (ha : ∀ c ∈ a, c.isDigit = true)
    (hb : ∀ c ∈ b, c.isDigit = true) (hlen : a.length = b.length) (h : decimal a < decimal b) : a < b := by
  induction a generalizing b with
  | nil =>
    obtain rfl := List.length_eq_zero_iff.mp hlen.symm
    exact absurd h (lt_irrefl _)
  | cons c a ih =>
    obtain ⟨d,b,rfl⟩ := List.exists_cons_of_length_eq_add_one hlen.symm
    have hrest : a.length = b.length := Nat.succ.inj hlen
    have hd : '0'.toNat ≤ d.toNat ∧ d.toNat ≤ 57 := Char.isDigit_iff_toNat.mp (hb d (by simp))
    have hb' := decimal_lt fun x hx => hb x (List.mem_cons_of_mem _ hx)
    rw [decimal_cons,decimal_cons,← hrest] at h
    rw [← hrest] at hb'
    refine List.cons_lt_cons_iff.mpr ?_
    rcases lt_trichotomy c.toNat d.toNat with hlt | heq | hgt
    · exact .inl hlt
    · obtain rfl : c = d := Char.toNat_inj.mp heq
      exact .inr ⟨rfl,ih (fun x hx => ha x (List.mem_cons_of_mem _ hx))
        (fun x hx => hb x (List.mem_cons_of_mem _ hx)) hrest (by omega)⟩
    · have hdigit : d.toNat- '0'.toNat+1 ≤ c.toNat- '0'.toNat := by omega
      have hmul := Nat.mul_le_mul_right (10^a.length) hdigit
      rw [Nat.add_mul,one_mul] at hmul
      omega

/-- As long as the versions of a kind have equally many digits the greatest text is the latest. -/
theorem isLatest_of_same_digits {kinds : List KindDescriptor} {name : String} {n : ℕ}
    (hform : ∀ k ∈ kinds, k.kind = name → ∃ digits, k.version.toList = 'v'::digits ∧
      digits.length = n ∧ ∀ c ∈ digits, c.isDigit = true)
    {k : KindDescriptor} (hk : IsTextLatest kinds name k) : IsLatest kinds name k := by
  refine ⟨hk.1,hk.2.1,fun x hx hname => ?_⟩
  obtain ⟨digits,hversion,hlen,hdigit⟩ := hform k hk.1 hk.2.1
  obtain ⟨digits',hversion',hlen',hdigit'⟩ := hform x hx hname
  by_contra hlt
  rw [versionNumber,versionNumber,hversion,hversion',not_le] at hlt
  refine absurd (hk.2.2 x hx hname) (not_le.mpr ?_)
  rw [String.lt_iff_toList_lt,hversion,hversion']
  exact List.cons_lt_cons_iff.mpr (.inr ⟨rfl,lt_of_decimal_lt hdigit hdigit' (hlen.trans hlen'.symm) hlt⟩)

/-- Two versions of the kind `frame`. -/
def frameVersions (v w : String) : List KindDescriptor :=
  [kindDescriptor { name := "frame", version := some v, semanticSchema := some (typeSchema "string") },
    kindDescriptor { name := "frame", version := some w, semanticSchema := some (typeSchema "object") }]

theorem frameVersions_wellFormed {v w : String} (h : v ≠ w) :
    SchemaTable.WellFormed compileType [] (frameVersions v w) where
  ids := List.nodup_nil
  versions := by simp [frameVersions,kindDescriptor,h]
  sources := by simp
  kinds k hk schema hschema := by
    rcases List.mem_pair.mp hk with rfl | rfl <;> obtain rfl := Option.some.inj hschema <;> exact ⟨_,rfl⟩

/-- The version `v2` before `v1`. -/
theorem schema_lookup_two_versions : ∃ t,
    SchemaTable.build compileType [] (frameVersions "v2" "v1") = .ok t ∧
    DocumentedSchema [] (frameVersions "v2" "v1") "cam" "frame"
      ((t.lookup "cam" "frame").map (·.1.value)) := by
  obtain ⟨t,hbuild,hlookup⟩ := schema_lookup_iff (frameVersions_wellFormed (v := "v2") (w := "v1") (by decide))
  refine ⟨t,hbuild,((hlookup "cam" "frame").mpr (.inr (.inr fun k hk => ⟨k,?_,rfl⟩))).1⟩
  refine isLatest_of_same_digits (n := 1) (fun x hx _ => ?_) hk
  rcases List.mem_pair.mp hx with rfl | rfl
  · exact ⟨['2'],by decide,rfl,by simp⟩
  · exact ⟨['1'],by decide,rfl,by simp⟩

/-- The text `v9` comes after `v10`. -/
theorem schema_lookup_fails : SchemaTable.WellFormed compileType [] (frameVersions "v9" "v10") ∧ ∃ t,
    SchemaTable.build compileType [] (frameVersions "v9" "v10") = .ok t ∧
    ¬DocumentedSchema [] (frameVersions "v9" "v10") "cam" "frame"
      ((t.lookup "cam" "frame").map (·.1.value)) := by
  refine ⟨frameVersions_wellFormed (by decide),_,rfl,fun h => ?_⟩
  have hown : ∀ schema, ¬OwnSchema [] "cam" schema := by
    rintro schema ⟨s,hs,-⟩
    cases hs
  rcases h.bare hown ⟨by decide,by decide⟩ with ⟨hnone,-⟩ | ⟨k,⟨hk,-,hmax⟩,hschema⟩
  · exact hnone _ List.mem_cons_self rfl
  · rcases List.mem_pair.mp hk with rfl | rfl
    · exact absurd (hmax _ (List.mem_cons_of_mem _ List.mem_cons_self) rfl) (by decide)
    · have hshown : some (typeSchema "string") = some (typeSchema "object") := hschema
      simp [typeSchema] at hshown

end Percept
