import Percept.Lib.OrderBy

/-! Keeping the front of a growing set of rows. A bound is a property of finite sets that smaller
sets inherit, and a row stays when the rows up to it are within the bound. A tighter bound applied
later makes an earlier one invisible; rows that come in between do not change this, unless one of
them is as far back as a row that was given up and would have taken its room. -/
namespace Retain

open Classical OrderBy

variable {ρ κ : Type*} [LinearOrder κ] {key : ρ → κ}

/-- The rows of `s` up to `r`. -/
noncomputable def upTo (key : ρ → κ) (s : Finset ρ) (r : ρ) : Finset ρ := s.filter fun x => key x ≤ key r

/-- The rows of `s` up to which `s` is within the bound. -/
noncomputable def retain (key : ρ → κ) (P : Finset ρ → Prop) (s : Finset ρ) : Finset ρ :=
  s.filter fun r => P (upTo key s r)

variable {P Q : Finset ρ → Prop} {s t u : Finset ρ} {r x : ρ}

@[simp] theorem mem_upTo : x ∈ upTo key s r ↔ x ∈ s ∧ key x ≤ key r := Finset.mem_filter

@[simp] theorem mem_retain : r ∈ retain key P s ↔ r ∈ s ∧ P (upTo key s r) := Finset.mem_filter

theorem retain_subset : retain key P s ⊆ s := Finset.filter_subset _ _

theorem upTo_mono (h : s ⊆ t) : upTo key s r ⊆ upTo key t r := Finset.filter_subset_filter _ h

theorem upTo_subset_upTo (h : key r ≤ key x) : upTo key s r ⊆ upTo key s x := fun _ hy =>
  mem_upTo.mpr ⟨(mem_upTo.mp hy).1,(mem_upTo.mp hy).2.trans h⟩

/-- What is in front of a kept row is kept. -/
theorem mem_retain_of_le (hP : Antitone P) (hr : r ∈ retain key P s) (hx : x ∈ s) (h : key x ≤ key r) :
    x ∈ retain key P s :=
  mem_retain.mpr ⟨hx,hP (upTo_subset_upTo h) (mem_retain.mp hr).2⟩

theorem lt_of_not_mem_retain (hP : Antitone P) (hr : r ∈ retain key P s) (hx : x ∈ s)
    (hnot : x ∉ retain key P s) : key r < key x :=
  not_le.mp fun h => hnot (mem_retain_of_le hP hr hx h)

theorem upTo_retain (hP : Antitone P) (hr : r ∈ retain key P s) :
    upTo key (retain key P s) r = upTo key s r := by
  refine (upTo_mono retain_subset).antisymm fun x hx => ?_
  obtain ⟨hxs,hxr⟩ := mem_upTo.mp hx
  exact mem_upTo.mpr ⟨mem_retain_of_le hP hr hxs hxr,hxr⟩

/-- A tighter bound makes an earlier one invisible. -/
theorem retain_retain (hP : Antitone P) (hQP : ∀ s, Q s → P s) :
    retain key Q (retain key P s) = retain key Q s := by
  ext r
  constructor
  · intro h
    obtain ⟨hr,hQ⟩ := mem_retain.mp h
    rw [upTo_retain hP hr] at hQ
    exact mem_retain.mpr ⟨retain_subset hr,hQ⟩
  · intro h
    obtain ⟨hr,hQ⟩ := mem_retain.mp h
    have hkept : r ∈ retain key P s := mem_retain.mpr ⟨hr,hQP _ hQ⟩
    exact mem_retain.mpr ⟨hkept,(upTo_retain hP hkept).symm ▸ hQ⟩

/-- No new row that would be kept is as far back as a row that was given up. -/
def Settled (key : ρ → κ) (P : Finset ρ → Prop) (s t : Finset ρ) : Prop :=
  ∀ r ∈ s, r ∉ retain key P s → ∀ x ∈ t, P (upTo key (retain key P s ∪ t) x) → key x < key r

/-- What was given up has no part in what is kept of the larger set. -/
theorem retain_union (hP : Antitone P) (hset : Settled key P s t) :
    retain key P (retain key P s ∪ t) = retain key P (s ∪ t) := by
  have hsub : retain key P s ∪ t ⊆ s ∪ t := Finset.union_subset_union_left retain_subset
  ext x
  constructor
  · intro hx
    obtain ⟨hmem,hin⟩ := mem_retain.mp hx
    have hsame : upTo key (s ∪ t) x ⊆ upTo key (retain key P s ∪ t) x := by
      intro y hy
      obtain ⟨hys,hyx⟩ := mem_upTo.mp hy
      refine mem_upTo.mpr ⟨?_,hyx⟩
      rcases Finset.mem_union.mp hys with hys | hyt
      · by_contra hnot
        have hgone : y ∉ retain key P s := fun h => hnot (Finset.mem_union_left _ h)
        rcases Finset.mem_union.mp hmem with hxs | hxt
        · exact not_le.mpr (lt_of_not_mem_retain hP hxs hys hgone) hyx
        · exact not_le.mpr (hset y hys hgone x hxt hin) hyx
      · exact Finset.mem_union_right _ hyt
    exact mem_retain.mpr ⟨hsub hmem,hP hsame hin⟩
  · intro hx
    obtain ⟨hmem,hin⟩ := mem_retain.mp hx
    refine mem_retain.mpr ⟨?_,hP (upTo_mono hsub) hin⟩
    rcases Finset.mem_union.mp hmem with hxs | hxt
    · exact Finset.mem_union_left _
        (mem_retain.mpr ⟨hxs,hP (upTo_mono Finset.subset_union_left) hin⟩)
    · exact Finset.mem_union_right _ hxt

/-- A row further back takes as much room as one in front of it. -/
def Exchanges (key : ρ → κ) (P : Finset ρ → Prop) : Prop :=
  ∀ s r x, x ∉ s → key r ≤ key x → P (insert x s) → P (insert r s)

theorem settled_of_exchanges (hP : Antitone P) (hex : Exchanges key P) (hinj : Set.InjOn key s) :
    Settled key P s t := by
  intro r hr hgone x hx hin
  by_contra hback
  have hrx : key r ≤ key x := not_lt.mp hback
  -- the first row that was given up
  obtain ⟨f,hf,hfirst⟩ := (s.filter (· ∉ retain key P s)).exists_min_image key
    ⟨r,Finset.mem_filter.mpr ⟨hr,hgone⟩⟩
  obtain ⟨hfs,hfgone⟩ := Finset.mem_filter.mp hf
  have hfr : key f ≤ key r := hfirst r (Finset.mem_filter.mpr ⟨hr,hgone⟩)
  have hfront : ∀ y ∈ retain key P s, key y < key f := fun y hy => lt_of_not_mem_retain hP hy hfs hfgone
  have hxgone : x ∉ retain key P s := fun h => not_le.mpr (hfront x h) (hfr.trans hrx)
  have hroom : insert x (retain key P s) ⊆ upTo key (retain key P s ∪ t) x := by
    intro y hy
    rcases Finset.mem_insert.mp hy with rfl | hy
    · exact mem_upTo.mpr ⟨Finset.mem_union_right _ hx,le_rfl⟩
    · exact mem_upTo.mpr ⟨Finset.mem_union_left _ hy,(hfront y hy).le.trans (hfr.trans hrx)⟩
  have hupto : upTo key s f ⊆ insert f (retain key P s) := by
    intro y hy
    obtain ⟨hys,hyf⟩ := mem_upTo.mp hy
    by_cases hykept : y ∈ retain key P s
    · exact Finset.mem_insert_of_mem hykept
    · have heq : key y = key f := hyf.antisymm (hfirst y (Finset.mem_filter.mpr ⟨hys,hykept⟩))
      exact Finset.mem_insert.mpr (Or.inl (hinj hys hfs heq))
  exact hfgone (mem_retain.mpr ⟨hfs,hP hupto (hex _ f x hxgone (hfr.trans hrx) (hP hroom hin))⟩)

theorem settled_of_in_front (h : ∀ r ∈ s, ∀ x ∈ t, key x < key r) : Settled key P s t :=
  fun r hr _ x hx _ => h r hr x hx

/-- Two sets of which the same is kept stay so when the same rows come in. -/
theorem retain_union_congr (hP : Antitone P) (hs : Settled key P s t) (hu : Settled key P u t)
    (h : retain key P s = retain key P u) : retain key P (s ∪ t) = retain key P (u ∪ t) := by
  rw [← retain_union hP hs,← retain_union hP hu,h]

/-- A list is kept up to the longest front part that is within the bound. -/
theorem retain_toFinset {l : List ρ} (hl : Ascending key l) {k : ℕ}
    (hk : ∀ j ≤ l.length, j ≤ k ↔ P (l.take j).toFinset) :
    retain key P l.toFinset = (l.take k).toFinset := by
  have hlt : ∀ i j (hi : i < l.length) (hj : j < l.length), i < j → key l[i] < key l[j] :=
    fun i j hi hj hij => List.pairwise_iff_getElem.mp hl i j hi hj hij
  have hle : ∀ i j (hi : i < l.length) (hj : j < l.length), key l[j] ≤ key l[i] ↔ j ≤ i := by
    intro i j hi hj
    constructor
    · intro h
      by_contra hij
      exact not_le.mpr (hlt i j hi hj (not_le.mp hij)) h
    · intro h
      rcases h.lt_or_eq with h | rfl
      · exact (hlt j i hj hi h).le
      · exact le_rfl
  have hplace : ∀ i (hi : i < l.length), upTo key l.toFinset l[i] = (l.take (i+1)).toFinset := by
    intro i hi
    ext x
    rw [mem_upTo,List.mem_toFinset,List.mem_toFinset,List.mem_take_iff_getElem]
    constructor
    · rintro ⟨hx,hxi⟩
      obtain ⟨j,hj,rfl⟩ := List.getElem_of_mem hx
      have hji := (hle i j hi hj).mp hxi
      exact ⟨j,by omega,rfl⟩
    · rintro ⟨j,hj,rfl⟩
      exact ⟨List.getElem_mem _,(hle i j hi (by omega)).mpr (by omega)⟩
  ext r
  rw [mem_retain,List.mem_toFinset,List.mem_toFinset]
  constructor
  · rintro ⟨hr,hin⟩
    obtain ⟨i,hi,rfl⟩ := List.getElem_of_mem hr
    rw [hplace i hi,← hk _ hi] at hin
    exact List.mem_take_iff_getElem.mpr ⟨i,by omega,rfl⟩
  · intro hr
    obtain ⟨i,hi,rfl⟩ := List.mem_take_iff_getElem.mp hr
    refine ⟨List.getElem_mem _,?_⟩
    rw [hplace i (by omega),← hk _ (by omega)]
    omega

end Retain
