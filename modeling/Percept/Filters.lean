import Percept.ColdStore
import Percept.VectorIndex

/-! Filters of `get_window` run as SQL `LIKE` patterns, those of the other tools as glob
sets. `LIKE` folds the case of ASCII letters and has no escape character here, so the two
agree on some lists of globs only: this file says on which. -/
namespace Percept

open StarPattern

section Folding

theorem sameFolded_refl (a : Char) : sameFolded a a = true := by simp [sameFolded]

theorem sameFolded_trans (a b c : Char) (hab : sameFolded a b = true)
    (hbc : sameFolded b c = true) : sameFolded a c = true := by
  simp_all [sameFolded]

theorem sameFolded_symm {a b : Char} (h : sameFolded a b = true) : sameFolded b a = true := by
  simp_all [sameFolded]

theorem toLower_toNat (c : Char) : c.toLower.toNat =
    if 65 ≤ c.toNat ∧ c.toNat ≤ 90 then c.toNat+32 else c.toNat := by
  have hiff : (c.val ≥ 'A'.val ∧ c.val ≤ 'Z'.val) ↔ (65 ≤ c.toNat ∧ c.toNat ≤ 90) := by
    simp only [ge_iff_le,UInt32.le_iff_toNat_le]
    exact Iff.rfl
  unfold Char.toLower
  split
  next h =>
    have hn := hiff.mp h
    have h32 : ('a'.val - 'A'.val).toNat = 32 := by decide
    rw [if_pos hn]
    simp only [Char.toNat] at hn ⊢
    simp only [UInt32.toNat_add,h32]
    omega
  next h => rw [if_neg (mt hiff.mpr h)]

/-- A character that is no ASCII letter has one case only. -/
theorem eq_of_sameFolded {a b : Char} (h : sameFolded a b = true)
    (hupper : ¬ (65 ≤ a.toNat ∧ a.toNat ≤ 90)) (hlower : ¬ (97 ≤ a.toNat ∧ a.toNat ≤ 122)) :
    b = a := by
  have hn : a.toLower.toNat = b.toLower.toNat := by simp_all [sameFolded]
  rw [toLower_toNat,toLower_toNat,if_neg hupper] at hn
  have : b.toNat = a.toNat := by split at hn <;> omega
  exact Char.toNat_inj.mp this

/-- The characters that mean something to one of the two pattern languages. -/
def IsSpecial (c : Char) : Prop := c = '*' ∨ c = '%' ∨ c = '_' ∨ c = '\\'

theorem IsSpecial.eq_of_sameFolded {a b : Char} (ha : IsSpecial a)
    (h : sameFolded a b = true) : b = a := by
  rcases ha with rfl | rfl | rfl | rfl <;> exact Percept.eq_of_sameFolded h (by decide) (by decide)

end Folding

/-- `globset`: a star is any sequence, any other character of these patterns itself. -/
def globTok (c : Char) : Tok Char := if c = '*' then .star else .lit c

/-- What `glob_to_like` and `LIKE` make of one character of a glob. -/
def likeExpand (c : Char) : List (Tok Char) :=
  if c = '%' then [.lit '\\',.star]
  else if c = '_' then [.lit '\\',.one]
  else [globTok c]

theorem globToLike_toks (g : String) :
    (globToLike g).toList.map likeTok = g.toList.flatMap likeExpand := by
  simp only [globToLike,replaceChar,String.toList_ofList,List.flatMap_assoc,List.map_flatMap]
  congr 1
  funext c
  by_cases hp : c = '%'
  · subst hp; rfl
  by_cases hu : c = '_'
  · subst hu; rfl
  by_cases hs : c = '*'
  · subst hs; rfl
  simp [hp,hu,hs,likeExpand,globTok,likeTok]

section Tokens

variable {same : Char → Char → Bool} {p q s t : List Char}

theorem one_notMem_globToks : Tok.one ∉ q.map globTok := by
  intro h
  obtain ⟨c,_,hc⟩ := List.mem_map.mp h
  unfold globTok at hc
  split at hc <;> cases hc

theorem lit_mem_globToks {a : Char} : Tok.lit a ∈ q.map globTok ↔ a ∈ q ∧ a ≠ '*' := by
  constructor
  · intro h
    obtain ⟨c,hc,hca⟩ := List.mem_map.mp h
    unfold globTok at hca
    split at hca <;> cases hca
    exact ⟨hc,by assumption⟩
  · rintro ⟨ha,hne⟩
    exact List.mem_map.mpr ⟨a,ha,by simp [globTok,hne]⟩

/-- A glob matches its own text, symbol for symbol. -/
theorem matches_of_forall₂ (h : List.Forall₂ (fun a b => same a b = true) p t) :
    Matches same (p.map globTok) t = true := by
  induction h with
  | nil => rfl
  | @cons a b p t hab _ ih =>
    by_cases ha : a = '*'
    · simp only [List.map_cons,globTok,ha,if_true,matches_star]
      exact ⟨[b],t,rfl,ih⟩
    · simp only [List.map_cons,globTok,ha,if_false,matches_lit]
      exact ⟨b,t,rfl,hab,ih⟩

theorem matches_self (hrefl : ∀ a, same a a = true) (p : List Char) :
    Matches same (p.map globTok) p = true := matches_of_forall₂ (List.forall₂_same.mpr fun a _ => hrefl a)

/-- A glob that matches another glob's text matches all that the other one matches. -/
theorem subsumes_glob (htrans : ∀ a b c, same a b = true → same b c = true → same a c = true)
    (hstar : ∀ a, same a '*' = true → a = '*')
    (hq : Matches same (q.map globTok) p = true)
    (hs : Matches same (p.map globTok) s = true) : Matches same (q.map globTok) s = true := by
  rw [List.map_eq_flatMap] at hs
  refine Matches.of_text htrans one_notMem_globToks (fun a ha b hab => ?_) hq hs
  have hb : b ≠ '*' := by
    rintro rfl
    exact (lit_mem_globToks.mp ha).2 (hstar a hab)
  simp [globTok,hb]

/-- The same for the `LIKE` form of the other glob, when nothing in `q` is escaped. -/
theorem subsumes_like (hfree : ∀ c ∈ q, c ≠ '_' ∧ c ≠ '%')
    (hq : Matches sameFolded (q.map globTok) p = true)
    (hs : Matches sameFolded (p.flatMap likeExpand) s = true) :
    Matches sameFolded (q.map globTok) s = true := by
  refine Matches.of_text sameFolded_trans one_notMem_globToks (fun a ha b hab => ?_) hq hs
  obtain ⟨haq,hstar⟩ := lit_mem_globToks.mp ha
  have hspecial : ∀ c, IsSpecial c → b = c → a = c := fun c hc hb =>
    hc.eq_of_sameFolded (sameFolded_symm (hb ▸ hab))
  have hb₁ : b ≠ '*' := fun hb => hstar (hspecial _ (.inl rfl) hb)
  have hb₂ : b ≠ '%' := fun hb => (hfree a haq).2 (hspecial _ (.inr (.inl rfl)) hb)
  have hb₃ : b ≠ '_' := fun hb => (hfree a haq).1 (hspecial _ (.inr (.inr (.inl rfl))) hb)
  simp [likeExpand,globTok,hb₁,hb₂,hb₃]

theorem likeExpand_of_free (hfree : ∀ c ∈ q, c ≠ '_' ∧ c ≠ '%') :
    q.flatMap likeExpand = q.map globTok := by
  rw [List.map_eq_flatMap]
  apply List.flatMap_congr
  intro c hc
  simp [likeExpand,(hfree c hc).1,(hfree c hc).2]

/-- An escaped character asks for a backslash in the subject. -/
theorem backslash_of_matches (hs : Matches sameFolded (q.flatMap likeExpand) s = true)
    (hq : ¬ ∀ c ∈ q, c ≠ '_' ∧ c ≠ '%') : '\\' ∈ s := by
  push Not at hq
  obtain ⟨c,hc,hcase⟩ := hq
  have hlit : Tok.lit '\\' ∈ q.flatMap likeExpand := by
    refine List.mem_flatMap.mpr ⟨c,hc,?_⟩
    by_cases hp : c = '%'
    · simp [likeExpand,hp]
    · have hu : c = '_' := by
        by_contra hu
        exact hp (hcase hu)
      simp [likeExpand,hu]
  obtain ⟨b,hb,hsame⟩ := Matches.exists_of_lit hs hlit
  have hspecial : IsSpecial '\\' := .inr (.inr (.inr rfl))
  rwa [hspecial.eq_of_sameFolded hsame] at hb

/-- A match up to case is an exact match of the glob in another case. -/
theorem exists_variant (h : Matches sameFolded (p.map globTok) s = true) :
    ∃ t, List.Forall₂ (fun a b => sameFolded a b = true) p t ∧
      Matches (fun a b => a = b) (t.map globTok) s = true := by
  induction p generalizing s with
  | nil => exact ⟨[],.nil,by simpa using h⟩
  | cons a p ih =>
    by_cases ha : a = '*'
    · subst ha
      obtain ⟨u,v,rfl,hv⟩ := matches_star.mp h
      obtain ⟨t,ht,hm⟩ := ih hv
      exact ⟨'*'::t,.cons (sameFolded_refl _) ht,matches_star.mpr ⟨u,v,rfl,hm⟩⟩
    · simp only [List.map_cons,globTok,ha,if_false,matches_lit] at h
      obtain ⟨b,v,rfl,hab,hv⟩ := h
      obtain ⟨t,ht,hm⟩ := ih hv
      have hb : b ≠ '*' := by
        rintro rfl
        have hspecial : IsSpecial '*' := .inl rfl
        exact ha (hspecial.eq_of_sameFolded (sameFolded_symm hab))
      refine ⟨b::t,.cons hab ht,?_⟩
      simp only [List.map_cons,globTok,hb,if_false,matches_lit]
      exact ⟨b,v,rfl,by simp,hm⟩

theorem exists_match (hrefl : ∀ a, same a a = true) (ps : List (Tok Char)) :
    ∃ s, Matches same ps s = true := by
  induction ps with
  | nil => exact ⟨[],rfl⟩
  | cons p ps ih =>
    obtain ⟨s,hs⟩ := ih
    cases p with
    | lit a => exact ⟨a::s,matches_lit.mpr ⟨a,s,rfl,hrefl a,hs⟩⟩
    | one => exact ⟨'x'::s,matches_one.mpr ⟨'x',s,rfl,hs⟩⟩
    | star => exact ⟨s,matches_star.mpr ⟨[],s,rfl,hs⟩⟩

end Tokens

/-- Literal characters and stars: none of the other metacharacters of `globset`. -/
def StarOnly (g : String) : Prop :=
  (g.toList.all fun c => c ∉ ['?','[',']','\x7b','\x7d','\\']) = true

instance (g : String) : Decidable (StarOnly g) := inferInstanceAs (Decidable (_ = true))

theorem StarOnly.backslash_notMem {g : String} (h : StarOnly g) : '\\' ∉ g.toList := by
  intro hmem
  simpa using List.all_eq_true.mp h _ hmem

def globMatches (g s : String) : Bool := Matches (fun a b => a = b) (g.toList.map globTok) s.toList

def globMatchesFolded (g s : String) : Bool := Matches sameFolded (g.toList.map globTok) s.toList

/-- `globset` accepts these patterns and a star matches any sequence, case-sensitively. -/
structure Globset.StarSemantics (gs : Globset) : Prop where
  glob : ∀ g, StarOnly g → gs.glob g = .ok ()
  build : ∀ globs, (∀ g ∈ globs, StarOnly g) → ∃ set, gs.build globs = .ok set ∧
    ∀ s, set s = globs.any fun g => globMatches g s

/-- No character that `glob_to_like` escapes. -/
def LikeFree (g : String) : Prop := ∀ c ∈ g.toList, c ≠ '_' ∧ c ≠ '%'

instance (g : String) : Decidable (LikeFree g) :=
  inferInstanceAs (Decidable (∀ c ∈ g.toList, c ≠ '_' ∧ c ≠ '%'))

/-- The same text up to the case of ASCII letters. -/
def CaseVariant (g t : String) : Prop :=
  List.Forall₂ (fun a b => sameFolded a b = true) g.toList t.toList

/-- Each glob's text is matched, up to case, by a glob of the list without `_` and `%`; and
every case variant of such a glob is matched, as a text, by a glob of the list. -/
structure Covered (globs : List String) : Prop where
  texts : ∀ p ∈ globs, ∃ q ∈ globs, LikeFree q ∧ globMatchesFolded q p = true
  cases : ∀ p ∈ globs, LikeFree p → ∀ t, CaseVariant p t → ∃ q ∈ globs, globMatches q t = true

theorem globMatches_trans {p q s : String} (hq : globMatches q p = true)
    (hs : globMatches p s = true) : globMatches q s = true :=
  subsumes_glob (by simp) (by simp) hq hs

theorem globMatches_folded {p s : String} (h : globMatches p s = true) :
    globMatchesFolded p s = true :=
  Matches.mono (fun a b hab => by
    obtain rfl : a = b := by simpa using hab
    exact sameFolded_refl a) h

theorem sqlLike_iff {g s : String} : sqlLike s (globToLike g) =
    Matches sameFolded (g.toList.flatMap likeExpand) s.toList := by
  rw [sqlLike,globToLike_toks]

/-- The SQL filter selects what the glob set selects exactly for covered lists. -/
theorem likeAny_iff_globAny {globs : List String} (hglobs : ∀ g ∈ globs, StarOnly g) :
    (∀ s, (globs.any fun g => sqlLike s (globToLike g)) = true ↔
      (globs.any fun g => globMatches g s) = true) ↔ Covered globs := by
  simp only [List.any_eq_true,sqlLike_iff]
  constructor
  · intro h
    refine ⟨fun p hp => ?_,fun p hp hfree t ht => ?_⟩
    · -- a glob matches its own text, which has no backslash
      obtain ⟨q,hq,hm⟩ := (h p).mpr ⟨p,hp,matches_self (by simp) _⟩
      have hfree : LikeFree q := by
        by_contra hesc
        have hback := backslash_of_matches hm hesc
        exact (hglobs p hp).backslash_notMem hback
      rw [likeExpand_of_free hfree] at hm
      exact ⟨q,hq,hfree,hm⟩
    · refine (h t).mp ⟨p,hp,?_⟩
      rw [likeExpand_of_free hfree]
      exact matches_of_forall₂ ht
  · intro hcov s
    constructor
    · rintro ⟨p,hp,hm⟩
      obtain ⟨q,hq,hfree,hqp⟩ := hcov.texts p hp
      obtain ⟨t,ht,hts⟩ := exists_variant (subsumes_like hfree hqp hm)
      have hvariant : CaseVariant q (String.ofList t) := by simpa [CaseVariant] using ht
      obtain ⟨r,hr,hrt⟩ := hcov.cases q hq hfree _ hvariant
      exact ⟨r,hr,globMatches_trans hrt (by simpa [globMatches] using hts)⟩
    · rintro ⟨p,hp,hm⟩
      obtain ⟨q,hq,hfree,hqp⟩ := hcov.texts p hp
      have hqs := subsumes_glob sameFolded_trans (fun a ha =>
        (show IsSpecial '*' from .inl rfl).eq_of_sameFolded (sameFolded_symm ha)) hqp
          (globMatches_folded hm)
      refine ⟨q,hq,?_⟩
      rwa [likeExpand_of_free hfree]

/-- Globs without `_`, `%` and ASCII letters are always covered. -/
theorem Covered.of_caseless {globs : List String} (hfree : ∀ g ∈ globs, LikeFree g)
    (hcase : ∀ g ∈ globs, ∀ c ∈ g.toList,
      ¬ (65 ≤ c.toNat ∧ c.toNat ≤ 90) ∧ ¬ (97 ≤ c.toNat ∧ c.toNat ≤ 122)) : Covered globs := by
  refine ⟨fun p hp => ⟨p,hp,hfree p hp,matches_self sameFolded_refl _⟩,fun p hp _ t ht => ?_⟩
  have heq : List.Forall₂ (fun a b => decide (a = b) = true) p.toList t.toList := by
    refine List.forall₂_iff_zip.mpr ⟨ht.length_eq,fun {a b} hab => ?_⟩
    have hmem := List.of_mem_zip hab
    obtain ⟨hupper,hlower⟩ := hcase p hp a hmem.1
    have hsame := (List.forall₂_iff_zip.mp ht).2 hab
    simpa using (eq_of_sameFolded hsame hupper hlower).symm
  exact ⟨p,hp,matches_of_forall₂ heq⟩

section Tools

/-- What the glob set of one filter selects. -/
def globAny (filter : Option (List String)) (s : String) : Bool :=
  match filter with
  | none => true
  | some globs => globs.isEmpty || globs.any fun g => globMatches g s

def FilterStarOnly (filter : Option (List String)) : Prop :=
  ∀ globs, filter = some globs → ∀ g ∈ globs, StarOnly g

def FilterCovered (filter : Option (List String)) : Prop :=
  ∀ globs, filter = some globs → Covered globs

@[simp] theorem filterStarOnly_none : FilterStarOnly none := by simp [FilterStarOnly]

@[simp] theorem filterStarOnly_some {globs : List String} :
    FilterStarOnly (some globs) ↔ ∀ g ∈ globs, StarOnly g := by simp [FilterStarOnly]

@[simp] theorem filterCovered_none : FilterCovered none := by simp [FilterCovered]

@[simp] theorem filterCovered_some {globs : List String} :
    FilterCovered (some globs) ↔ Covered globs := by simp [FilterCovered]

theorem globClause_iff_globAny {filter : Option (List String)} (hf : FilterStarOnly filter) :
    (∀ s, globClause filter s = true ↔ globAny filter s = true) ↔ FilterCovered filter := by
  cases filter with
  | none => simp [globClause,globAny]
  | some globs =>
    cases globs with
    | nil =>
      have hnil : Covered [] := ⟨by simp,by simp⟩
      simp [globClause,globAny,hnil]
    | cons g globs =>
      simp only [globClause,globAny,List.isEmpty_cons,Bool.false_or,filterCovered_some]
      exact likeAny_iff_globAny (hf _ rfl)

theorem exists_globClause (filter : Option (List String)) : ∃ s, globClause filter s = true := by
  rcases filter with _ | _ | ⟨g,globs⟩
  · exact ⟨"",rfl⟩
  · exact ⟨"",rfl⟩
  · obtain ⟨s,hs⟩ := exists_match sameFolded_refl (g.toList.flatMap likeExpand)
    have hlike : sqlLike (String.ofList s) (globToLike g) = true := by
      simpa [sqlLike_iff] using hs
    exact ⟨String.ofList s,by simp [globClause,hlike]⟩

theorem exists_globAny (filter : Option (List String)) : ∃ s, globAny filter s = true := by
  rcases filter with _ | _ | ⟨g,globs⟩
  · exact ⟨"",rfl⟩
  · exact ⟨"",rfl⟩
  · have hself : globMatches g g = true := matches_self (by simp) _
    exact ⟨g,by simp [globAny,hself]⟩

variable {gs : Globset} {ε : Type} {fs fk : Option (List String)}

theorem compile_ok (hgs : gs.StarSemantics) (toError : String → ε) (hf : FilterStarOnly fs) :
    ∃ set, gs.compile toError fs = .ok set ∧ ∀ s, matchesOrEmpty set s = globAny fs s := by
  rcases fs with _ | _ | ⟨g,globs⟩
  · exact ⟨none,rfl,fun s => rfl⟩
  · exact ⟨none,rfl,fun s => rfl⟩
  · have hall := hf _ rfl
    obtain ⟨set,hset,hmatch⟩ := hgs.build _ hall
    have hglob : ∀ l : List String, (∀ g ∈ l, StarOnly g) → l.forM gs.glob = .ok () := by
      intro l hl
      induction l with
      | nil => rfl
      | cons a l ih =>
        change (gs.glob a >>= fun _ => l.forM gs.glob) = .ok ()
        rw [hgs.glob a (hl a (by simp))]
        exact ih fun g hg => hl g (by simp [hg])
    refine ⟨some set,by simp [Globset.compile,hglob _ hall,hset],fun s => ?_⟩
    simp [globAny,hmatch]

/-- The answer of `describe_sources` and `get_current_state` for one descriptor. -/
def registrySelects (gs : Globset) (fs fk : Option (List String)) (d : ResolvedDescriptor) : Bool :=
  match (DescriptorRegistry.mk [d]).filter gs fs fk with
  | .error _ => false
  | .ok rows => d ∈ rows

/-- The filter of `search_events` on one row, without a time range. -/
def searchSelects (gs : Globset) (fs fk : Option (List String)) (row : InMemoryRow) : Bool :=
  match gs.compile VectorError.decode fs,gs.compile VectorError.decode fk with
  | .ok src,.ok kind => VectorIndex.selects { sourceFilter := fs, kindFilter := fk } src kind row
  | _,_ => false

theorem registrySelects_eq (hgs : gs.StarSemantics) (hs : FilterStarOnly fs)
    (hk : FilterStarOnly fk) (d : ResolvedDescriptor) :
    registrySelects gs fs fk d = (globAny fs d.sourceId && globAny fk d.kind) := by
  obtain ⟨src,hsrc,hsm⟩ := compile_ok hgs id hs
  obtain ⟨kind,hkind,hkm⟩ := compile_ok hgs id hk
  have hfilter : (DescriptorRegistry.mk [d]).filter gs fs fk = .ok (([d].filter fun r =>
      matchesOrEmpty src r.sourceId).filter fun r => matchesOrEmpty kind r.kind) := by
    simp only [DescriptorRegistry.filter,hsrc,hkind]
    rfl
  simp only [registrySelects,hfilter,hsm,hkm]
  cases hs' : globAny fs d.sourceId <;> cases hk' : globAny fk d.kind <;> simp [hs',hk']

theorem searchSelects_eq (hgs : gs.StarSemantics) (hs : FilterStarOnly fs)
    (hk : FilterStarOnly fk) (row : InMemoryRow) :
    searchSelects gs fs fk row = (globAny fs row.sourceId && globAny fk row.kind) := by
  obtain ⟨src,hsrc,hsm⟩ := compile_ok hgs VectorError.decode hs
  obtain ⟨kind,hkind,hkm⟩ := compile_ok hgs VectorError.decode hk
  simp [searchSelects,hsrc,hkind,VectorIndex.selects,hsm,hkm]

/-- Two products of nonempty sets are equal only factor by factor. -/
theorem and_iff_and_iff {α β : Type} {p p' : α → Prop} {q q' : β → Prop} (hp : ∃ a, p a)
    (hp' : ∃ a, p' a) (hq : ∃ b, q b) (hq' : ∃ b, q' b) :
    (∀ a b, p a ∧ q b ↔ p' a ∧ q' b) ↔ (∀ a, p a ↔ p' a) ∧ ∀ b, q b ↔ q' b := by
  constructor
  · intro h
    obtain ⟨a,ha⟩ := hp
    obtain ⟨a',ha'⟩ := hp'
    obtain ⟨b,hb⟩ := hq
    obtain ⟨b',hb'⟩ := hq'
    exact ⟨fun x => ⟨fun hx => ((h x b).mp ⟨hx,hb⟩).1,fun hx => ((h x b').mpr ⟨hx,hb'⟩).1⟩,
      fun y => ⟨fun hy => ((h a y).mp ⟨ha,hy⟩).2,fun hy => ((h a' y).mpr ⟨ha',hy⟩).2⟩⟩
  · rintro ⟨ha,hb⟩ a b
    rw [ha,hb]

/-- The tools select the same sources and kinds exactly when both filters are covered. -/
theorem filters_uniform_iff (hgs : gs.StarSemantics) (hs : FilterStarOnly fs)
    (hk : FilterStarOnly fk) :
    (∀ (d : ResolvedDescriptor) (row : InMemoryRow), row.sourceId = d.sourceId →
      row.kind = d.kind →
      ((globClause fs d.sourceId = true ∧ globClause fk d.kind = true) ↔
        registrySelects gs fs fk d = true) ∧
      ((globClause fs d.sourceId = true ∧ globClause fk d.kind = true) ↔
        searchSelects gs fs fk row = true)) ↔
      FilterCovered fs ∧ FilterCovered fk := by
  rw [← globClause_iff_globAny hs,← globClause_iff_globAny hk,
    ← and_iff_and_iff (exists_globClause fs) (exists_globAny fs) (exists_globClause fk)
      (exists_globAny fk)]
  simp only [registrySelects_eq hgs hs hk,searchSelects_eq hgs hs hk,Bool.and_eq_true]
  constructor
  · intro h sourceId kind
    exact (h ⟨sourceId,kind⟩ ⟨0,sourceId,kind,0,false,[]⟩ rfl rfl).1
  · rintro h ⟨sourceId,kind⟩ row hsource hkind
    rw [hsource,hkind]
    exact ⟨h _ _,h _ _⟩

/-- A glob set with these semantics; other patterns are refused. -/
def starGlobset : Globset where
  glob g := if StarOnly g then .ok () else .error "unsupported glob"
  build globs := .ok fun s => globs.any fun g => globMatches g s

theorem starGlobset_starSemantics : starGlobset.StarSemantics where
  glob g hg := by simp only [starGlobset,hg,if_true]
  build globs _ := ⟨_,rfl,fun _ => rfl⟩

theorem covered_star : Covered ["*","a_"] := by
  have hany : ∀ t, globMatches "*" t = true := fun t =>
    matches_star.mpr ⟨t.toList,[],by simp,rfl⟩
  refine ⟨?_,fun _ _ _ t _ => ⟨"*",by simp,hany t⟩⟩
  intro p _
  exact ⟨"*",by simp,by simp [LikeFree],globMatches_folded (hany p)⟩

/-- A star next to a glob with an underscore: the tools agree. -/
theorem filters_uniform_star :
    ((globClause (some ["*","a_"]) "A_1" = true ∧ globClause none "k" = true) ↔
      registrySelects starGlobset (some ["*","a_"]) none ⟨"A_1","k"⟩ = true) ∧
    ((globClause (some ["*","a_"]) "A_1" = true ∧ globClause none "k" = true) ↔
      searchSelects starGlobset (some ["*","a_"]) none ⟨0,"A_1","k",0,false,[]⟩ = true) :=
  (filters_uniform_iff starGlobset_starSemantics (filterStarOnly_some.mpr (by decide))
    filterStarOnly_none).mpr ⟨filterCovered_some.mpr covered_star,filterCovered_none⟩
    ⟨"A_1","k"⟩ ⟨0,"A_1","k",0,false,[]⟩ rfl rfl

/-- An underscore is escaped for a `LIKE` that has no escape character; the case of letters
is ignored by `LIKE` only. -/
theorem filters_uniform_fails :
    starGlobset.StarSemantics ∧ FilterStarOnly (some ["cam_1"]) ∧
      globClause (some ["cam_1"]) "cam_1" = false ∧
      registrySelects starGlobset (some ["cam_1"]) none ⟨"cam_1","k"⟩ = true ∧
      searchSelects starGlobset (some ["cam_1"]) none ⟨0,"cam_1","k",0,false,[]⟩ = true ∧
      globClause (some ["cam"]) "CAM" = true ∧
      registrySelects starGlobset (some ["cam"]) none ⟨"CAM","k"⟩ = false :=
  ⟨starGlobset_starSemantics,filterStarOnly_some.mpr (by decide),by decide,by decide,by decide,
    by decide,by decide⟩

end Tools

end Percept
