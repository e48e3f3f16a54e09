import Mathlib

/-! A stable sort by a key, and a search for the first value in the sorted list: it stops at the
least key that has a value, and among equal keys at the first in the list itself. -/
namespace StableSort

variable {α β κ : Type*} [LinearOrder κ] (key : α → κ)

def sortBy (l : List α) : List α := l.insertionSort fun a b => key a ≤ key b

theorem sortBy_perm (l : List α) : (sortBy key l).Perm l := List.perm_insertionSort _ l

theorem sortBy_pairwise (l : List α) : (sortBy key l).Pairwise fun a b => key a ≤ key b := by
  have : Std.Total fun a b : α => key a ≤ key b := ⟨fun _ _ => le_total _ _⟩
  have : IsTrans α fun a b => key a ≤ key b := ⟨fun _ _ _ => le_trans⟩
  exact List.pairwise_insertionSort _ l

/-- Elements of one key keep their order. -/
theorem filter_sortBy (l : List α) (t : κ) :
    (sortBy key l).filter (fun a => key a = t) = l.filter fun a => key a = t := by
  have hequal : (l.filter fun a => key a = t).Pairwise fun a b => key a ≤ key b := by
    refine List.pairwise_of_forall_mem_list fun a ha b hb => ?_
    have hat : key a = t := by simpa using (List.mem_filter.mp ha).2
    have hbt : key b = t := by simpa using (List.mem_filter.mp hb).2
    exact (hat.trans hbt.symm).le
  have : Std.Total fun a b : α => key a ≤ key b := ⟨fun _ _ => le_total _ _⟩
  have : IsTrans α fun a b => key a ≤ key b := ⟨fun _ _ _ => le_trans⟩
  have hsub : (l.filter fun a => key a = t).Sublist (sortBy key l) :=
    List.sublist_insertionSort hequal List.filter_sublist
  have hfilter := hsub.filter fun a => decide (key a = t)
  simp only [List.filter_filter,Bool.and_self] at hfilter
  exact (hfilter.eq_of_length ((sortBy_perm key l).filter _).length_eq.symm).symm

/-- The place that decides: a value at the least key, and at the first place of that key. -/
def FirstAt (f : α → Option β) (pre : List α) (p : α) (post : List α) (v : β) : Prop :=
  f p = some v ∧ (∀ q ∈ pre, (f q).isSome → key p < key q) ∧
    ∀ q ∈ post, (f q).isSome → key p ≤ key q

variable {key} {f : α → Option β} {l : List α} {v : β}

theorem firstAt_of_findSome? (h : (sortBy key l).findSome? f = some v) :
    ∃ pre p post, l = pre ++ p::post ∧ FirstAt key f pre p post v := by
  obtain ⟨front,a,back,hsplit,ha,hfront⟩ := List.findSome?_eq_some_iff.mp h
  have hsorted := sortBy_pairwise key l
  rw [hsplit] at hsorted
  have hleast : ∀ q ∈ l, (f q).isSome → key a ≤ key q := by
    intro q hq hsome
    have hq' : q ∈ front ++ a::back := hsplit ▸ (sortBy_perm key l).mem_iff.mpr hq
    rcases List.mem_append.mp hq' with hq' | hq'
    · rw [hfront q hq'] at hsome
      cases hsome
    · rcases List.mem_cons.mp hq' with rfl | hq'
      · exact le_rfl
      · exact List.rel_of_pairwise_cons (List.pairwise_append.mp hsorted).2.1 hq'
  have hsame : (l.filter fun b => key b = key a).findSome? f = some v := by
    have hnone : (front.filter fun b => key b = key a).findSome? f = none :=
      List.findSome?_eq_none_iff.mpr fun b hb => hfront b (List.mem_filter.mp hb).1
    rw [← filter_sortBy,hsplit,List.filter_append,List.findSome?_append,hnone,
      List.filter_cons_of_pos (by simp),List.findSome?_cons,ha]
    rfl
  obtain ⟨pre',p,post',hfilter,hp,hpre'⟩ := List.findSome?_eq_some_iff.mp hsame
  obtain ⟨l₁,l₂,rfl,hl₁,hl₂⟩ := List.filter_eq_append_iff.mp hfilter
  obtain ⟨pre,post,rfl,hpre,hkey,rfl⟩ := List.filter_eq_cons_iff.mp hl₂
  have hkey' : key p = key a := by simpa using hkey
  refine ⟨l₁ ++ pre,p,post,by simp,hp,fun q hq hsome => ?_,fun q hq hsome => ?_⟩
  · refine lt_of_le_of_ne (hkey' ▸ hleast q (by grind) hsome) fun heq => ?_
    rcases List.mem_append.mp hq with hq | hq
    · have hmem : q ∈ pre' := hl₁ ▸ List.mem_filter.mpr ⟨hq,by simp [← heq,hkey']⟩
      rw [hpre' q hmem] at hsome
      cases hsome
    · exact hpre q hq (by simp [← heq,hkey'])
  · exact hkey' ▸ hleast q (by simp [hq]) hsome

/-- A later place does not decide too. -/
theorem FirstAt.not_later {pre post post' : List α} {p p' : α} {v v' : β} (h : FirstAt key f pre p post v)
    (mid : List α) (h' : FirstAt key f (pre ++ p::mid) p' post' v') (hp' : p' ∈ post) : False := by
  have hlt := h'.2.1 p (by simp) (by simp [h.1])
  have hle := h.2.2 p' hp' (by simp [h'.1])
  exact absurd hlt (not_lt.mpr hle)

theorem FirstAt.unique_of_append {pre mid post post' : List α} {p p' : α} {v v' : β}
    (h : FirstAt key f pre p post v) (h' : FirstAt key f (pre ++ mid) p' post' v')
    (hmid : p::post = mid ++ p'::post') : v = v' := by
  cases mid with
  | nil =>
    obtain ⟨rfl,rfl⟩ := List.cons.inj hmid
    exact Option.some.inj (h.1.symm.trans h'.1)
  | cons a mid =>
    obtain ⟨rfl,rfl⟩ := List.cons.inj hmid
    exact (h.not_later mid h' (by simp)).elim

theorem FirstAt.unique {pre pre' post post' : List α} {p p' : α} {v v' : β}
    (h : FirstAt key f pre p post v) (h' : FirstAt key f pre' p' post' v')
    (heq : pre ++ p::post = pre' ++ p'::post') : v = v' := by
  rcases List.append_eq_append_iff.mp heq with ⟨mid,rfl,hmid⟩ | ⟨mid,rfl,hmid⟩
  · exact h.unique_of_append h' hmid
  · exact (h'.unique_of_append h hmid).symm

theorem findSome?_sortBy_iff (key : α → κ) (f : α → Option β) (l : List α) (v : β) :
    (sortBy key l).findSome? f = some v ↔
    ∃ pre p post, l = pre ++ p::post ∧ FirstAt key f pre p post v := by
  refine ⟨firstAt_of_findSome?,?_⟩
  rintro ⟨pre,p,post,hl,h⟩
  cases hfound : (sortBy key l).findSome? f with
  | none =>
    have hmem : p ∈ sortBy key l := (sortBy_perm key l).mem_iff.mpr (by simp [hl])
    have hp := List.findSome?_eq_none_iff.mp hfound p hmem
    rw [h.1] at hp
    cases hp
  | some w =>
    obtain ⟨pre',p',post',hl',h'⟩ := firstAt_of_findSome? hfound
    rw [h.unique h' (hl.symm.trans hl')]

theorem FirstAt.le {front back : List α} {q : α} (h : FirstAt key f front q back v) :
    ∀ r ∈ front ++ q::back, (f r).isSome → key q ≤ key r := by
  intro r hr hsome
  rcases List.mem_append.mp hr with hr | hr
  · exact (h.2.1 r hr hsome).le
  · rcases List.mem_cons.mp hr with rfl | hr
    · exact le_rfl
    · exact h.2.2 r hr hsome

theorem FirstAt.insert_before {front₁ front₂ back : List α} {p q : α}
    (h : FirstAt key f (front₁ ++ front₂) q back v) (hp : (f p).isSome → key q < key p) :
    FirstAt key f (front₁ ++ p::front₂) q back v := by
  refine ⟨h.1,fun a ha hsome => ?_,h.2.2⟩
  rcases List.mem_append.mp ha with ha | ha
  · exact h.2.1 a (List.mem_append_left _ ha) hsome
  · rcases List.mem_cons.mp ha with rfl | ha
    · exact hp hsome
    · exact h.2.1 a (List.mem_append_right _ ha) hsome

theorem FirstAt.insert_after {front back₁ back₂ : List α} {p q : α}
    (h : FirstAt key f front q (back₁ ++ back₂) v) (hp : (f p).isSome → key q ≤ key p) :
    FirstAt key f front q (back₁ ++ p::back₂) v := by
  refine ⟨h.1,h.2.1,fun a ha hsome => ?_⟩
  rcases List.mem_append.mp ha with ha | ha
  · exact h.2.2 a (List.mem_append_left _ ha) hsome
  · rcases List.mem_cons.mp ha with rfl | ha
    · exact hp hsome
    · exact h.2.2 a (List.mem_append_right _ ha) hsome

/-- An element changes nothing that has no value, or comes after one that has. -/
theorem findSome?_sortBy_insert {pre post : List α} {p : α}
    (h : (f p).isSome → ∃ r, (f r).isSome ∧ (r ∈ pre ∧ key r ≤ key p ∨ r ∈ post ∧ key r < key p)) :
    (sortBy key (pre ++ p::post)).findSome? f = (sortBy key (pre ++ post)).findSome? f := by
  cases hfound : (sortBy key (pre ++ post)).findSome? f with
  | none =>
    have hnone : ∀ a ∈ pre ++ post, f a = none := fun a ha =>
      List.findSome?_eq_none_iff.mp hfound a ((sortBy_perm key _).mem_iff.mpr ha)
    have hp : f p = none := by
      by_contra hp
      obtain ⟨r,hr,hplace⟩ := h (Option.isSome_iff_ne_none.mpr hp)
      rw [hnone r (List.mem_append.mpr (hplace.imp And.left And.left))] at hr
      cases hr
    refine List.findSome?_eq_none_iff.mpr fun a ha => ?_
    rcases List.mem_append.mp ((sortBy_perm key _).mem_iff.mp ha) with ha | ha
    · exact hnone a (List.mem_append_left _ ha)
    · rcases List.mem_cons.mp ha with rfl | ha
      · exact hp
      · exact hnone a (List.mem_append_right _ ha)
  | some v =>
    obtain ⟨front,q,back,hl,hq⟩ := (findSome?_sortBy_iff key f _ v).mp hfound
    refine (findSome?_sortBy_iff key f _ v).mpr ?_
    have hleast := hl ▸ hq.le
    -- `q` still decides; only its comparison with `p` is new
    rcases List.append_eq_append_iff.mp hl with ⟨mid,rfl,hmid⟩ | ⟨mid,rfl,hmid⟩
    · refine ⟨pre ++ p::mid,q,back,by simp [hmid],hq.insert_before fun hsome => ?_⟩
      obtain ⟨r,hr,⟨hr',hle⟩ | ⟨hr',hlt⟩⟩ := h hsome
      · exact (hq.2.1 r (List.mem_append_left _ hr') hr).trans_le hle
      · exact (hleast r (List.mem_append_right _ hr') hr).trans_lt hlt
    · cases mid with
      | nil =>
        obtain rfl := hmid
        rw [List.append_nil] at h ⊢
        refine ⟨front ++ [p],q,back,by simp,(List.append_nil front ▸ hq).insert_before fun hsome => ?_⟩
        obtain ⟨r,hr,⟨hr',hle⟩ | ⟨hr',hlt⟩⟩ := h hsome
        · exact (hq.2.1 r hr' hr).trans_le hle
        · exact (hq.le r (List.mem_append_right _ hr') hr).trans_lt hlt
      | cons b mid =>
        obtain ⟨rfl,rfl⟩ := List.cons.inj hmid
        refine ⟨front,q,mid ++ p::post,by simp,hq.insert_after fun hsome => ?_⟩
        obtain ⟨r,hr,⟨hr',hle⟩ | ⟨hr',hlt⟩⟩ := h hsome
        · exact (hleast r (List.mem_append_left _ hr') hr).trans hle
        · exact (hleast r (List.mem_append_right _ hr') hr).trans hlt.le

end StableSort
