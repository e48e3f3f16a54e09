import Percept.RetentionLaw
import Percept.KindSplit

/-! Every dimension of the effective retention at once: which entry it comes from, what an entry
that decides nothing leaves as it is, and the kinds with a version. -/
namespace Percept

inductive Dimension
  | maxAge | maxCount | maxBytes | vectorMaxAge
  deriving DecidableEq

namespace Dimension

/-- What a policy sets, ages in milliseconds. -/
def set : Dimension → RetentionPolicy → Option Int64
  | maxAge => RetentionPolicy.ageMs
  | maxCount => RetentionPolicy.maxCount
  | maxBytes => RetentionPolicy.maxBytes
  | vectorMaxAge => RetentionPolicy.vectorAgeMs

def effective : Dimension → EffectiveRetention → Option Int64
  | maxAge => EffectiveRetention.maxAgeMs
  | maxCount => EffectiveRetention.maxCount
  | maxBytes => EffectiveRetention.maxBytes
  | vectorMaxAge => EffectiveRetention.vectorMaxAgeMs

theorem effective_fill (d : Dimension) (e : EffectiveRetention) (p : RetentionPolicy) :
    d.effective (e.fill p) = (d.effective e).or (d.set p) := by
  cases d <;> rfl

theorem effective_empty (d : Dimension) : d.effective {} = none := by
  cases d <;> rfl

end Dimension

@[ext] theorem EffectiveRetention.ext_dimension {e e' : EffectiveRetention}
    (h : ∀ d : Dimension, d.effective e = d.effective e') : e = e' := by
  cases e
  cases e'
  rw [EffectiveRetention.mk.injEq]
  exact ⟨h .maxAge,h .maxCount,h .maxBytes,h .vectorMaxAge⟩

section

variable {policies pre post : List RetentionPolicy} {p : RetentionPolicy} {sourceId kind : String}

/-- A dimension is the first value in the order of the tiers. -/
theorem effective_resolveEffective (d : Dimension) (policies : List RetentionPolicy)
    (sourceId kind : String) : d.effective (resolveEffective policies sourceId kind) =
      (StableSort.sortBy RetentionPolicy.tier
        (policies.filter fun p => p.applies sourceId kind)).findSome? d.set := by
  unfold resolveEffective
  rw [foldl_fill d.effective_fill,d.effective_empty,Option.none_or]
  rfl

theorem effective_eq_none_iff (d : Dimension) :
    d.effective (resolveEffective policies sourceId kind) = none ↔
      ∀ p ∈ policies, p.applies sourceId kind = true → d.set p = none := by
  rw [effective_resolveEffective,List.findSome?_eq_none_iff]
  refine forall_congr' fun p => ?_
  rw [(StableSort.sortBy_perm _ _).mem_iff,List.mem_filter,and_imp]

/-- An entry that applies is no smaller than it in tier and place and sets the dimension. -/
def CoveredBy (d : Dimension) (pre post : List RetentionPolicy) (sourceId kind : String)
    (p : RetentionPolicy) : Prop :=
  ∃ r, r.applies sourceId kind = true ∧ (d.set r).isSome ∧
    (r ∈ pre ∧ r.tier ≤ p.tier ∨ r ∈ post ∧ r.tier < p.tier)

theorem resolveEffective_insert (h : p.applies sourceId kind = true →
      ∀ d : Dimension, (d.set p).isSome → CoveredBy d pre post sourceId kind p) :
    resolveEffective (pre ++ p::post) sourceId kind = resolveEffective (pre ++ post) sourceId kind := by
  by_cases happ : p.applies sourceId kind = true
  · ext d : 1
    rw [effective_resolveEffective,effective_resolveEffective,List.filter_append,List.filter_append,
      List.filter_cons_of_pos (p := fun q : RetentionPolicy => q.applies sourceId kind) happ]
    refine StableSort.findSome?_sortBy_insert fun hsome => ?_
    obtain ⟨r,hr,hset,hplace⟩ := h happ d hsome
    exact ⟨r,hset,hplace.imp (fun hp => ⟨List.mem_filter.mpr ⟨hp.1,hr⟩,hp.2⟩)
      fun hp => ⟨List.mem_filter.mpr ⟨hp.1,hr⟩,hp.2⟩⟩
  · unfold resolveEffective
    rw [List.filter_append,List.filter_append,
      List.filter_cons_of_neg (p := fun q : RetentionPolicy => q.applies sourceId kind) happ]

end

namespace RetentionPolicy

/-- An entry that names the kind applies to its versions. -/
theorem applies_pinned {p : RetentionPolicy} {n : String} (hn : '@' ∉ n.toList)
    (hp : p.matchKind = some n) (sourceId v : String) :
    p.applies sourceId (n ++ "@" ++ v) = p.applies sourceId n := by
  refine applies_version hn (fun hversion => hn ?_) sourceId
  have hself : n = n ++ "@" ++ v := Option.some.inj (hp.symm.trans hversion)
  rw [hself]
  simp

end RetentionPolicy

/-- Each dimension comes from the entry that is least in tier and place of those that apply and
set it, an entry that is not that one for any dimension changes nothing, and versions resolve by
the name of their kind. -/
theorem retention_by_tier_and_place (policies : List RetentionPolicy) (sourceId kind : String) :
    (∀ (d : Dimension) (v : Int64), d.effective (resolveEffective policies sourceId kind) = some v ↔
      ∃ i, RetentionPolicy.Decides d.set policies sourceId kind i v) ∧
    (∀ d : Dimension, d.effective (resolveEffective policies sourceId kind) = none ↔
      ∀ p ∈ policies, p.applies sourceId kind = true → d.set p = none) ∧
    (∀ pre p post, policies = pre ++ post → p.applies sourceId kind = false ∨
        (∀ d : Dimension, (d.set p).isSome → CoveredBy d pre post sourceId kind p) →
      resolveEffective (pre ++ p::post) sourceId kind = resolveEffective policies sourceId kind) ∧
    ∀ n v (p : RetentionPolicy), '@' ∉ n.toList → p.matchKind = some n →
      p.applies sourceId (n ++ "@" ++ v) = p.applies sourceId n := by
  refine ⟨fun d v => resolveEffective_iff d.effective_fill d.effective_empty,
    effective_eq_none_iff,?_,fun n v p hn hp => RetentionPolicy.applies_pinned hn hp sourceId v⟩
  rintro pre p post rfl h
  refine resolveEffective_insert fun happ d hsome => ?_
  rcases h with hnot | hcovered
  · exact absurd (hnot.symm.trans happ) (by decide)
  · exact hcovered d hsome

end Percept
