import Mathlib

/-! A bounded queue that expires its elements from the front: a push drops what is too much, then
what is not fresh, and stops at the first fresh element. -/
namespace FrontQueue

variable {α : Type*} (size : ℕ) (fresh : α → α → Prop) [DecidableRel fresh]

/-- `fresh x z` tells whether `x` may stay when `z` is pushed. -/
def push (q : List α) (z : α) : List α :=
  ((q ++ [z]).drop ((q ++ [z]).length-size)).dropWhile fun x => !decide (fresh x z)

def run (l : List α) : List α := l.foldl (push size fresh) []

/-- After every push of the run all that is left is fresh. -/
def AllFresh (l : List α) : Prop :=
  ∀ before z after, l = before ++ z::after → ∀ x ∈ run size fresh (before ++ [z]), fresh x z

/-- What is pushed behind an element that was fresh all the time is fresh as well, as long as both
fit into the queue. -/
def InOrder (l : List α) : Prop :=
  ∀ before x between z after, l = before ++ x::(between ++ z::after) → between.length+2 ≤ size →
    (∀ m ∈ x::(between ++ [z]), fresh x m) → ∀ y ∈ between ++ [z], fresh y z

variable {size fresh} {l q : List α} {x z : α}

theorem run_concat (l : List α) (z : α) :
    run size fresh (l ++ [z]) = push size fresh (run size fresh l) z := List.foldl_concat ..

theorem push_suffix (q : List α) (z : α) : push size fresh q z <:+ q ++ [z] :=
  (List.dropWhile_suffix _).trans (List.drop_suffix _ _)

theorem length_push_le (q : List α) (z : α) : (push size fresh q z).length ≤ size := by
  refine (List.dropWhile_suffix _).length_le.trans ?_
  rw [List.length_drop]
  omega

/-- The loop stopped at its front. -/
theorem fresh_of_push_eq {rest : List α} (h : push size fresh q z = x::rest) : fresh x z := by
  have hhead := List.head?_dropWhile_not (fun x => !decide (fresh x z))
    ((q ++ [z]).drop ((q ++ [z]).length-size))
  rw [← push,h] at hhead
  simpa using hhead

theorem suffix_dropWhile {p : α → Bool} (hx : p x = false) (a b : List α) :
    x::b <:+ (a ++ x::b).dropWhile p := by
  induction a with
  | nil =>
    rw [List.nil_append,List.dropWhile_cons_of_neg (by simp [hx])]
  | cons c a ih =>
    rw [List.cons_append,List.dropWhile_cons]
    split
    · exact ih
    · exact (List.suffix_append a (x::b)).trans (List.suffix_cons c _)

/-- What begins with a fresh element and fits into the queue stays. -/
theorem suffix_push {s : List α} (h : x::s <:+ q ++ [z]) (hlength : (x::s).length ≤ size)
    (hfresh : fresh x z) : x::s <:+ push size fresh q z := by
  obtain ⟨a,ha⟩ := h
  rw [push,← ha,List.length_append]
  have hdrop : a.length+(x::s).length-size ≤ a.length := by omega
  rw [List.drop_append_of_le_length hdrop]
  exact suffix_dropWhile (by simpa using hfresh) _ _

theorem length_run_le (l : List α) : (run size fresh l).length ≤ size := by
  induction l using List.reverseRecOn with
  | nil => exact Nat.zero_le _
  | append_singleton l z ih =>
    rw [run_concat]
    exact length_push_le _ z

theorem run_suffix (l : List α) : run size fresh l <:+ l := by
  induction l using List.reverseRecOn with
  | nil => exact List.nil_suffix
  | append_singleton l z ih =>
    rw [run_concat]
    obtain ⟨a,ha⟩ := ih
    exact (push_suffix _ z).trans ⟨a,by rw [← List.append_assoc,ha]⟩

/-- An element that is fresh at every push from its own on stays, with all that comes behind it. -/
theorem suffix_run {before s : List α} (hlength : (x::s).length ≤ size)
    (hfresh : ∀ m ∈ x::s, fresh x m) : x::s <:+ run size fresh (before ++ x::s) := by
  induction s using List.reverseRecOn with
  | nil =>
    rw [run_concat]
    exact suffix_push (List.suffix_append _ _) hlength (hfresh x List.mem_cons_self)
  | append_singleton s z ih =>
    rw [← List.cons_append,List.length_append] at hlength
    obtain ⟨a,ha⟩ := ih (by omega) fun m hm => hfresh m (List.mem_append_left [z] hm)
    have hwhole : x::(s ++ [z]) <:+ run size fresh (before ++ x::s) ++ [z] :=
      ⟨a,by rw [← ha,List.append_assoc,List.cons_append]⟩
    have hrun : run size fresh (before ++ x::(s ++ [z])) =
        push size fresh (run size fresh (before ++ x::s)) z := by
      rw [← run_concat,List.append_assoc,List.cons_append]
    rw [hrun]
    exact suffix_push hwhole (by simpa using hlength) (hfresh z (by simp))

/-- What is in the queue was in it after every earlier push since its own. -/
theorem suffix_run_of_append {s c : List α} (h : s ++ c <:+ run size fresh (l ++ c)) :
    s <:+ run size fresh l := by
  induction c using List.reverseRecOn with
  | nil => simpa using h
  | append_singleton c z ih =>
    rw [← List.append_assoc,← List.append_assoc,run_concat] at h
    exact ih (List.suffix_append_self_iff.mp (h.trans (push_suffix _ z)))

theorem AllFresh.inOrder (h : AllFresh size fresh l) : InOrder size fresh l := by
  rintro before x between z after rfl hlength hfresh y hy
  have hstays : x::(between ++ [z]) <:+ run size fresh (before ++ x::(between ++ [z])) :=
    suffix_run (by rw [List.length_cons,List.length_append]; exact hlength) hfresh
  have hsplit : before ++ x::(between ++ z::after) = (before ++ x::between) ++ z::after := by simp
  have hrun : before ++ x::(between ++ [z]) = before ++ x::between ++ [z] := by simp
  refine h _ z after hsplit y (hstays.subset ?_ |> fun hy => hrun ▸ hy)
  exact List.mem_cons_of_mem x hy

omit [DecidableRel fresh] in
theorem InOrder.of_append {c : List α} (h : InOrder size fresh (l ++ c)) : InOrder size fresh l := by
  rintro before x between z after rfl hlength hfresh
  exact h before x between z (after ++ c) (by simp) hlength hfresh

omit [DecidableRel fresh] in
theorem InOrder.congr {fresh' : α → α → Prop} (hl : ∀ x ∈ l, ∀ z, fresh x z ↔ fresh' x z)
    (h : InOrder size fresh l) : InOrder size fresh' l := by
  rintro before x between z after rfl hlength hfresh y hy
  have hx := hl x (by simp)
  refine (hl y ?_ z).mp (h before x between z after rfl hlength (fun m hm => (hx m).mpr (hfresh m hm)) y hy)
  rcases List.mem_append.mp hy with hy | hy
  · simp [hy]
  · simp [List.mem_singleton.mp hy]

omit [DecidableRel fresh] in
/-- When freshness only grows along the list, nothing is overtaken. -/
theorem inOrder_of_pairwise (h : l.Pairwise fun x y => ∀ z, fresh x z → fresh y z) :
    InOrder size fresh l := by
  rintro before x between z after rfl - hfresh y hy
  have hx := (List.pairwise_cons.mp (List.pairwise_append.mp h).2.1).1
  refine hx y ?_ z (hfresh z (by simp))
  rcases List.mem_append.mp hy with hy | hy
  · exact List.mem_append_left _ hy
  · simp [List.mem_singleton.mp hy]

/-- The front of the queue was fresh at every push before, when all that was left was fresh. -/
theorem AllFresh.front {before between : List α} {w : α} (h : AllFresh size fresh l)
    (hl : l = before ++ x::between) (hstays : x::(between ++ [w]) <:+ run size fresh (l ++ [w])) {m : α}
    (hm : m ∈ x::between) : fresh x m := by
  obtain ⟨a,b,hsplit⟩ := List.append_of_mem hm
  have hx : x ∈ a ++ [m] := by
    cases a with
    | nil => exact List.mem_singleton.mpr (List.cons.inj hsplit).1
    | cons c a => exact (List.cons.inj hsplit).1 ▸ List.mem_append_left [m] List.mem_cons_self
  have hparts : x::(between ++ [w]) = (a ++ [m]) ++ (b ++ [w]) := by
    rw [← List.cons_append,hsplit]
    simp
  have hl' : l = before ++ a ++ m::b := by rw [hl,hsplit,List.append_assoc]
  have hrun : l ++ [w] = before ++ a ++ [m] ++ (b ++ [w]) := by
    rw [hl']
    simp
  rw [hparts,hrun] at hstays
  exact h (before ++ a) m b hl' x ((suffix_run_of_append hstays).subset hx)

/-- All that the last push leaves is behind its front. -/
theorem InOrder.last (h : InOrder size fresh (l ++ [z])) (hl : AllFresh size fresh l) :
    ∀ y ∈ run size fresh (l ++ [z]), fresh y z := by
  cases hrun : run size fresh (l ++ [z]) with
  | nil => exact fun y hy => absurd hy List.not_mem_nil
  | cons x rest =>
    have hxz : fresh x z := fresh_of_push_eq ((run_concat l z).symm.trans hrun)
    have hsuffix : run size fresh (l ++ [z]) <:+ l ++ [z] := run_suffix _
    have hlength : (run size fresh (l ++ [z])).length ≤ size := length_run_le _
    rw [hrun] at hsuffix hlength
    rcases rest.eq_nil_or_concat with rfl | ⟨between,w,rfl⟩
    · intro y hy
      rwa [List.mem_singleton.mp hy]
    · rw [List.concat_eq_append] at hrun hsuffix hlength ⊢
      obtain ⟨before,hbefore⟩ := hsuffix
      have hconcat : before ++ x::between ++ [w] = l ++ [z] := by
        rw [← hbefore]
        simp
      obtain ⟨hl',hw⟩ := List.append_inj' hconcat rfl
      obtain rfl : w = z := List.singleton_inj.mp hw
      have hfront : ∀ m ∈ x::(between ++ [w]), fresh x m := by
        intro m hm
        rw [← List.cons_append] at hm
        rcases List.mem_append.mp hm with hm | hm
        · exact hl.front hl'.symm (by rw [hrun]) hm
        · rwa [List.mem_singleton.mp hm]
      intro y hy
      rcases List.mem_cons.mp hy with rfl | hy
      · exact hxz
      · refine h before x between w [] ?_ ?_ hfront y hy
        · rw [← hl']
          simp
        · rwa [List.length_cons,List.length_append] at hlength

theorem InOrder.allFresh (h : InOrder size fresh l) : AllFresh size fresh l := by
  induction l using List.reverseRecOn with
  | nil => rintro before z after hl; simp at hl
  | append_singleton l w ih =>
    have hl := ih h.of_append
    rintro before z after hsplit y hy
    rcases after.eq_nil_or_concat with rfl | ⟨after,w',rfl⟩
    · obtain ⟨rfl,hw⟩ := List.append_inj' hsplit rfl
      obtain rfl : w = z := List.singleton_inj.mp hw
      exact h.last hl y hy
    · have hassoc : l ++ [w] = before ++ z::after ++ [w'] := by simpa using hsplit
      exact hl before z after (List.append_inj' hassoc rfl).1 y hy

theorem allFresh_iff : AllFresh size fresh l ↔ InOrder size fresh l :=
  ⟨AllFresh.inOrder,InOrder.allFresh⟩

end FrontQueue
