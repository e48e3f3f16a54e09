import Mathlib

/-! Wildcard patterns over an arbitrary alphabet: literals, a single-symbol wildcard and
an any-sequence wildcard. Literals are compared by a relation, so case-sensitive and
case-folding matchers are two instances. A pattern written as a text of symbols is
expanded symbol by symbol; matching a text against another pattern then decides
subsumption. -/
namespace StarPattern

variable {α : Type*}

inductive Tok (α : Type*)
  | lit (a : α) | one | star

/-- `star` tries every split of the subject; `same` compares a literal with a symbol. -/
def Matches (same : α → α → Bool) : List (Tok α) → List α → Bool
  | [], s => s.isEmpty
  | .lit _::_, [] => false
  | .lit a::ps, b::s => same a b && Matches same ps s
  | .one::_, [] => false
  | .one::ps, _::s => Matches same ps s
  | .star::ps, s => s.tails.any fun t => Matches same ps t

variable {same : α → α → Bool}

@[simp] theorem matches_nil {s : List α} : Matches same [] s = true ↔ s = [] := by
  simp [Matches]

@[simp] theorem matches_lit {a : α} {ps : List (Tok α)} {s : List α} :
    Matches same (.lit a::ps) s = true ↔
      ∃ b t, s = b::t ∧ same a b = true ∧ Matches same ps t = true := by
  cases s <;> simp [Matches]

@[simp] theorem matches_one {ps : List (Tok α)} {s : List α} :
    Matches same (.one::ps) s = true ↔ ∃ b t, s = b::t ∧ Matches same ps t = true := by
  cases s <;> simp [Matches]

@[simp] theorem matches_star {ps : List (Tok α)} {s : List α} :
    Matches same (.star::ps) s = true ↔ ∃ u t, s = u ++ t ∧ Matches same ps t = true := by
  simp only [Matches,List.any_eq_true,List.mem_tails]
  constructor
  · rintro ⟨t,⟨u,rfl⟩,h⟩
    exact ⟨u,t,rfl,h⟩
  · rintro ⟨u,t,rfl,h⟩
    exact ⟨t,⟨u,rfl⟩,h⟩

theorem matches_append {ps qs : List (Tok α)} {s : List α} :
    Matches same (ps ++ qs) s = true ↔
      ∃ u t, s = u ++ t ∧ Matches same ps u = true ∧ Matches same qs t = true := by
  induction ps generalizing s with
  | nil => simp
  | cons p ps ih =>
    cases p with
    | lit a =>
      simp only [List.cons_append,matches_lit,ih]
      constructor
      · rintro ⟨b,_,rfl,hab,u,t,rfl,hu,ht⟩
        exact ⟨b::u,t,rfl,⟨b,u,rfl,hab,hu⟩,ht⟩
      · rintro ⟨_,t,rfl,⟨b,u,rfl,hab,hu⟩,ht⟩
        exact ⟨b,u ++ t,rfl,hab,u,t,rfl,hu,ht⟩
    | one =>
      simp only [List.cons_append,matches_one,ih]
      constructor
      · rintro ⟨b,_,rfl,u,t,rfl,hu,ht⟩
        exact ⟨b::u,t,rfl,⟨b,u,rfl,hu⟩,ht⟩
      · rintro ⟨_,t,rfl,⟨b,u,rfl,hu⟩,ht⟩
        exact ⟨b,u ++ t,rfl,u,t,rfl,hu,ht⟩
    | star =>
      simp only [List.cons_append,matches_star,ih]
      constructor
      · rintro ⟨v,_,rfl,u,t,rfl,hu,ht⟩
        exact ⟨v ++ u,t,by simp,⟨v,u,rfl,hu⟩,ht⟩
      · rintro ⟨_,t,rfl,⟨v,u,rfl,hu⟩,ht⟩
        exact ⟨v,u ++ t,by simp,u,t,rfl,hu,ht⟩

/-- A coarser comparison of literals matches more. -/
theorem Matches.mono {same' : α → α → Bool} (h : ∀ a b, same a b = true → same' a b = true)
    {ps : List (Tok α)} {s : List α} (hm : Matches same ps s = true) :
    Matches same' ps s = true := by
  induction ps generalizing s with
  | nil => simpa using hm
  | cons p ps ih =>
    cases p with
    | lit a =>
      obtain ⟨b,t,rfl,hab,ht⟩ := matches_lit.mp hm
      exact matches_lit.mpr ⟨b,t,rfl,h a b hab,ih ht⟩
    | one =>
      obtain ⟨b,t,rfl,ht⟩ := matches_one.mp hm
      exact matches_one.mpr ⟨b,t,rfl,ih ht⟩
    | star =>
      obtain ⟨u,t,rfl,ht⟩ := matches_star.mp hm
      exact matches_star.mpr ⟨u,t,rfl,ih ht⟩

/-- A literal of the pattern has to meet a symbol of the subject. -/
theorem Matches.exists_of_lit {a : α} {ps : List (Tok α)} {s : List α}
    (hm : Matches same ps s = true) (ha : .lit a ∈ ps) : ∃ b ∈ s, same a b = true := by
  obtain ⟨qs,rs,rfl⟩ := List.append_of_mem ha
  obtain ⟨u,v,rfl,_,hv⟩ := matches_append.mp hm
  obtain ⟨b,t,rfl,hab,_⟩ := matches_lit.mp hv
  exact ⟨b,by simp,hab⟩

/-- Subsumption by the text: `q` matches the text of another pattern, read as a plain
subject, and then everything that pattern matches, whatever its wildcard symbols expand
to, because only a star of `q` can have taken them. -/
theorem Matches.of_text {expand : α → List (Tok α)}
    (htrans : ∀ a b c, same a b = true → same b c = true → same a c = true)
    {q : List (Tok α)} (hone : .one ∉ q)
    (hlit : ∀ a, .lit a ∈ q → ∀ b, same a b = true → expand b = [.lit b])
    {text s : List α} (hq : Matches same q text = true)
    (hs : Matches same (text.flatMap expand) s = true) : Matches same q s = true := by
  induction q generalizing text s with
  | nil =>
    obtain rfl := matches_nil.mp hq
    simpa using hs
  | cons p q ih =>
    have hone' : .one ∉ q := fun h => hone (List.mem_cons_of_mem _ h)
    have hlit' : ∀ a, .lit a ∈ q → ∀ b, same a b = true → expand b = [.lit b] :=
      fun a ha => hlit a (List.mem_cons_of_mem _ ha)
    cases p with
    | lit a =>
      obtain ⟨b,t,rfl,hab,ht⟩ := matches_lit.mp hq
      rw [List.flatMap_cons,hlit a List.mem_cons_self b hab] at hs
      obtain ⟨c,v,rfl,hbc,hv⟩ := matches_lit.mp hs
      exact matches_lit.mpr ⟨c,v,rfl,htrans a b c hab hbc,ih hone' hlit' ht hv⟩
    | one => exact absurd List.mem_cons_self hone
    | star =>
      obtain ⟨u,t,rfl,ht⟩ := matches_star.mp hq
      rw [List.flatMap_append] at hs
      obtain ⟨v,w,rfl,_,hw⟩ := matches_append.mp hs
      exact matches_star.mpr ⟨v,w,rfl,ih hone' hlit' ht hw⟩

end StarPattern
