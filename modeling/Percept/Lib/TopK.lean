import Percept.Lib.OrderBy

/-! Bounded selection of the best `k` of a stream: the first `k` elements are kept, a later
one replaces the first of the worst when it is strictly better. -/
namespace TopK

variable {α S : Type*} [LinearOrder S] {score : α → S}

/-- Position and score of the first minimal element, as `min_by` over `enumerate`. -/
def firstMin (score : α → S) : List α → Option (ℕ × S)
  | [] => none
  | a::l =>
    match firstMin score l with
    | none => some (0,score a)
    | some (i,m) => if m < score a then some (i+1,m) else some (0,score a)

def insert (score : α → S) (k : ℕ) (heap : List α) (hit : α) : List α :=
  if heap.length < k then heap ++ [hit]
  else match firstMin score heap with
    | none => heap
    | some (worstIdx,worstScore) => if worstScore < score hit then heap.set worstIdx hit else heap

def select (score : α → S) (k : ℕ) (hits : List α) : List α := hits.foldl (insert score k) []

theorem firstMin_isSome (score : α → S) {l : List α} (h : l ≠ []) : ∃ i m, firstMin score l = some (i,m) := by
  cases l with
  | nil => exact absurd rfl h
  | cons a l =>
    simp only [firstMin]
    split
    · exact ⟨_,_,rfl⟩
    · split <;> exact ⟨_,_,rfl⟩

/-- The position holds a minimal element. -/
theorem firstMin_spec {l : List α} {i : ℕ} {m : S} (h : firstMin score l = some (i,m)) :
    ∃ (pre post : List α) (w : α), l = pre ++ w::post ∧ pre.length = i ∧ score w = m ∧
      ∀ a ∈ l, m ≤ score a := by
  induction l generalizing i m with
  | nil => simp [firstMin] at h
  | cons a l ih =>
    simp only [firstMin] at h
    split at h
    next hnone =>
      obtain ⟨rfl,rfl⟩ : 0 = i ∧ score a = m := by simpa using h
      have hl : l = [] := by
        by_contra hne
        obtain ⟨j,m',hm⟩ := firstMin_isSome score hne
        rw [hm] at hnone
        exact absurd hnone (by simp)
      exact ⟨[],l,a,rfl,rfl,rfl,by simp [hl]⟩
    next j m' hm =>
      obtain ⟨pre,post,w,rfl,hlen,hw,hmin⟩ := ih hm
      split at h
      next hlt =>
        obtain ⟨rfl,rfl⟩ : j+1 = i ∧ m' = m := by simpa using h
        refine ⟨a::pre,post,w,rfl,by simp [hlen],hw,?_⟩
        intro b hb
        rcases List.mem_cons.mp hb with rfl | hb
        · exact hlt.le
        · exact hmin b hb
      next hge =>
        obtain ⟨rfl,rfl⟩ : 0 = i ∧ score a = m := by simpa using h
        refine ⟨[],pre ++ w::post,a,rfl,rfl,rfl,?_⟩
        intro b hb
        rcases List.mem_cons.mp hb with rfl | hb
        · exact le_rfl
        · exact (not_lt.mp hge).trans (hmin b hb)

/-- `sel` holds the best `k` of `l`, and `out` the rest. -/
structure Best (score : α → S) (k : ℕ) (l sel out : List α) : Prop where
  perm : (sel ++ out).Perm l
  length : sel.length = min k l.length
  le : ∀ a ∈ sel, ∀ b ∈ out, score b ≤ score a

section Best

variable {k : ℕ} {l sel out : List α} {x : α}

/-- With a free slot nothing has been left out yet. -/
theorem Best.add (h : Best score k l sel out) (hroom : sel.length < k) :
    Best score k (l ++ [x]) (sel ++ [x]) [] := by
  have htotal : sel.length+out.length = l.length := by simpa using h.perm.length_eq
  have hlen := h.length
  have hout : out = [] := List.eq_nil_of_length_eq_zero (by omega)
  subst hout
  refine ⟨?_,by simp; omega,by simp⟩
  simpa using h.perm.append_right [x]

/-- A new element that beats the worst one takes its place. -/
theorem Best.replace {pre post : List α} {w : α} (h : Best score k l (pre ++ w::post) out)
    (hfull : k ≤ (pre ++ w::post).length) (hw : ∀ a ∈ pre ++ w::post, score w ≤ score a)
    (hlt : score w < score x) : Best score k (l ++ [x]) (pre ++ x::post) (w::out) := by
  have hlen := h.length
  refine ⟨?_,?_,fun a ha b hb => ?_⟩
  · have hswap : ((pre ++ x::post) ++ w::out).Perm (pre ++ w::(x::post ++ out)) := by
      rw [List.append_assoc]
      exact (List.Perm.refl pre).append List.perm_middle
    have hfront : ((pre ++ [w]) ++ x::(post ++ out)).Perm (x::((pre ++ [w]) ++ (post ++ out))) :=
      List.perm_middle
    have hback : ([x] ++ (pre ++ w::post ++ out)).Perm (pre ++ w::post ++ out ++ [x]) :=
      List.perm_append_comm
    simp only [List.append_assoc,List.cons_append,List.nil_append] at hswap hfront hback ⊢
    have hperm := h.perm.append_right [x]
    simp only [List.append_assoc,List.cons_append] at hperm
    exact hswap.trans (hfront.trans (hback.trans hperm))
  · simp only [List.length_append,List.length_cons,List.length_nil] at hlen hfull ⊢
    omega
  · have hbw : score b ≤ score w := by
      rcases List.mem_cons.mp hb with rfl | hb
      · exact le_rfl
      · exact h.le w (by simp) b hb
    rcases List.mem_append.mp ha with ha | ha
    · exact hbw.trans (hw a (List.mem_append_left _ ha))
    · rcases List.mem_cons.mp ha with rfl | ha
      · exact hbw.trans hlt.le
      · exact hbw.trans (hw a (List.mem_append_right _ (List.mem_cons_of_mem w ha)))

/-- A new element that beats none is left out. -/
theorem Best.discard (h : Best score k l sel out) (hfull : k ≤ sel.length)
    (hx : ∀ a ∈ sel, score x ≤ score a) : Best score k (l ++ [x]) sel (x::out) := by
  have hlen := h.length
  refine ⟨?_,?_,fun a ha b hb => ?_⟩
  · have hback : ([x] ++ (sel ++ out)).Perm (sel ++ out ++ [x]) := List.perm_append_comm
    exact List.perm_middle.trans (hback.trans (h.perm.append_right [x]))
  · rw [List.length_append,List.length_singleton]
    omega
  · rcases List.mem_cons.mp hb with rfl | hb
    · exact hx a ha
    · exact h.le a ha b hb

theorem Best.step (h : Best score k l sel out) (hk : 0 < k) (x : α) :
    ∃ out', Best score k (l ++ [x]) (insert score k sel x) out' := by
  unfold insert
  split
  next hroom => exact ⟨[],h.add hroom⟩
  next hfull =>
    have hne : sel ≠ [] := by
      rintro rfl
      exact hfull (by simpa using hk)
    obtain ⟨i,m,hmin⟩ := firstMin_isSome score hne
    obtain ⟨pre,post,w,rfl,rfl,rfl,hw⟩ := firstMin_spec hmin
    simp only [hmin]
    split
    next hlt =>
      have hset : (pre ++ w::post).set pre.length x = pre ++ x::post := by simp
      rw [hset]
      exact ⟨w::out,h.replace (not_lt.mp hfull) hw hlt⟩
    next hge =>
      exact ⟨x::out,h.discard (not_lt.mp hfull) fun a ha => (not_lt.mp hge).trans (hw a ha)⟩

end Best

theorem select_best (score : α → S) {k : ℕ} (hk : 0 < k) (l : List α) :
    ∃ out, Best score k l (select score k l) out := by
  induction l using List.reverseRecOn with
  | nil => exact ⟨[],⟨by simp [select],by simp [select],by simp [select]⟩⟩
  | append_singleton l x ih =>
    obtain ⟨out,h⟩ := ih
    simpa [select] using h.step hk x

theorem select_zero (score : α → S) (l : List α) : select score 0 l = [] := by
  induction l using List.reverseRecOn with
  | nil => rfl
  | append_singleton l x ih =>
    rw [select,List.foldl_concat,← select,ih]
    rfl

/-- The scores that are kept are the `k` highest, whatever the order of the stream. -/
theorem select_scores (score : α → S) (k : ℕ) (l : List α) :
    ((select score k l).map score).insertionSort (· ≥ ·) =
      ((l.map score).insertionSort (· ≥ ·)).take k := by
  rcases Nat.eq_zero_or_pos k with rfl | hk
  · rw [select_zero,List.take_zero]
    rfl
  obtain ⟨out,hbest⟩ := select_best score hk l
  generalize select score k l = sel at hbest ⊢
  have hsplit : (l.map score).insertionSort (· ≥ ·) =
      (sel.map score).insertionSort (· ≥ ·) ++ (out.map score).insertionSort (· ≥ ·) := by
    refine List.Perm.eq_of_sortedGE List.sortedGE_insertionSort ?_ ?_
    · refine List.Pairwise.sortedGE (List.pairwise_append.mpr ⟨List.sortedGE_insertionSort.pairwise,
        List.sortedGE_insertionSort.pairwise,fun a ha b hb => ?_⟩)
      obtain ⟨x,hx,rfl⟩ := List.mem_map.mp ((List.mem_insertionSort _).mp ha)
      obtain ⟨y,hy,rfl⟩ := List.mem_map.mp ((List.mem_insertionSort _).mp hb)
      exact hbest.le x hx y hy
    · have hparts := ((List.perm_insertionSort (· ≥ ·) (sel.map score)).append
        (List.perm_insertionSort (· ≥ ·) (out.map score))).symm
      rw [← List.map_append] at hparts
      exact (List.perm_insertionSort _ _).trans ((hbest.perm.map score).symm.trans hparts)
  have hlen := hbest.length
  have htotal : sel.length+out.length = l.length := by simpa using hbest.perm.length_eq
  rw [hsplit]
  rcases Nat.le_total k l.length with hle | hle
  · rw [List.take_left' (by simpa using hlen.trans (min_eq_left hle))]
  · have hout : out = [] := List.eq_nil_of_length_eq_zero (by omega)
    rw [hout,List.map_nil,List.insertionSort_nil,List.append_nil,
      List.take_of_length_le (by simpa using hlen.trans_le (min_le_left _ _))]

/-- Of a stream that does not ascend the first `k` elements are kept. -/
theorem select_of_descending {k : ℕ} {l : List α} (h : l.Pairwise fun a b => score b ≤ score a) :
    select score k l = l.take k := by
  induction l using List.reverseRecOn with
  | nil => simp [select]
  | append_singleton l x ih =>
    obtain ⟨hl,_,hx⟩ := List.pairwise_append.mp h
    have hstep : select score k (l ++ [x]) = insert score k (l.take k) x := by
      rw [select,List.foldl_concat,← select,ih hl]
    rw [hstep]
    unfold insert
    split
    next hroom =>
      rw [List.length_take] at hroom
      rw [List.take_of_length_le (by omega),List.take_of_length_le (by simp; omega)]
    next hfull =>
      have hle : k ≤ l.length := by
        rw [List.length_take] at hfull
        omega
      rw [List.take_append_of_le_length hle]
      cases hmin : firstMin score (l.take k) with
      | none => rfl
      | some worst =>
        obtain ⟨pre,post,w,hsplit,_,hw,_⟩ := firstMin_spec hmin
        have hwl : w ∈ l := List.mem_of_mem_take (i := k) (by rw [hsplit]; simp)
        exact if_neg (not_lt.mpr ((hx w hwl x (by simp)).trans_eq hw))

section Live

variable {live : α → Bool} {k : ℕ} {l : List α}

/-- No dead element takes a place from a live one: `k` others beat the dead one, or the live
one has at most `k` elements, itself included, at its score or above. -/
def Undisturbed (score : α → S) (live : α → Bool) (k : ℕ) (l : List α) : Prop :=
  ∀ d ∈ l, ∀ x ∈ l, live d = false → live x = true →
    k ≤ l.countP (fun y => score d < score y) ∨ l.countP (fun y => score x ≤ score y) ≤ k

theorem Undisturbed.perm {l' : List α} (h : Undisturbed score live k l) (hp : l.Perm l') :
    Undisturbed score live k l' := by
  intro d hd x hx hdl hxl
  rw [← hp.countP_eq,← hp.countP_eq]
  exact h d (hp.symm.subset hd) x (hp.symm.subset hx) hdl hxl

/-- Then the selection has as many live elements as there can be. -/
theorem Undisturbed.countP_select (h : Undisturbed score live k l) (hk : 0 < k) :
    (select score k l).countP live = min k (l.countP live) := by
  obtain ⟨out,hbest⟩ := select_best score hk l
  generalize select score k l = sel at hbest ⊢
  have hcount : ∀ p : α → Bool, l.countP p = sel.countP p+out.countP p := fun p => by
    rw [← hbest.perm.countP_eq,List.countP_append]
  have hlen := hbest.length
  have htotal : sel.length+out.length = l.length := by simpa using hbest.perm.length_eq
  have hlive := hcount live
  have hselLe : sel.countP live ≤ sel.length := List.countP_le_length
  have houtLe : out.countP live ≤ out.length := List.countP_le_length
  by_cases hdead : ∃ d ∈ sel, live d = false
  · by_cases hleft : ∃ x ∈ out, live x = true
    · obtain ⟨d,hd,hdl⟩ := hdead
      obtain ⟨x,hx,hxl⟩ := hleft
      have hbeaten : l.countP (fun y => score d < score y) < sel.length := by
        have hnone : out.countP (fun y => score d < score y) = 0 :=
          List.countP_eq_zero.mpr fun y hy => by simpa using hbest.le d hd y hy
        rw [hcount,hnone,Nat.add_zero]
        exact lt_of_le_of_ne List.countP_le_length fun heq =>
          absurd (List.countP_eq_length.mp heq d hd) (by simp)
      have hbehind : sel.length < l.countP (fun y => score x ≤ score y) := by
        have hall : sel.countP (fun y => score x ≤ score y) = sel.length :=
          List.countP_eq_length.mpr fun y hy => by simpa using hbest.le y hy x hx
        have hself : 0 < out.countP (fun y => score x ≤ score y) :=
          List.countP_pos_iff.mpr ⟨x,hx,by simp⟩
        rw [hcount,hall]
        omega
      have hfull : sel.length = k := by
        have hpos := List.length_pos_of_mem hx
        omega
      rcases h d (hbest.perm.subset (List.mem_append_left _ hd)) x
        (hbest.perm.subset (List.mem_append_right _ hx)) hdl hxl with hle | hle
      · omega
      · omega
    · have hnone : out.countP live = 0 :=
        List.countP_eq_zero.mpr fun x hx hxl => hleft ⟨x,hx,hxl⟩
      omega
  · have hall : sel.countP live = sel.length := List.countP_eq_length.mpr fun d hd => by
      cases hd' : live d with
      | true => rfl
      | false => exact absurd ⟨d,hd,hd'⟩ hdead
    omega

/-- A dead element that is kept and a live one that is not leave too few live ones. -/
theorem countP_select_lt (hk : 0 < k) {d x : α} (hd : d ∈ select score k l) (hdl : live d = false)
    (hx : x ∈ l) (hxs : x ∉ select score k l) (hxl : live x = true) :
    (select score k l).countP live < min k (l.countP live) := by
  obtain ⟨out,hbest⟩ := select_best score hk l
  generalize select score k l = sel at hbest hd hxs ⊢
  have hcount : l.countP live = sel.countP live+out.countP live := by
    rw [← hbest.perm.countP_eq,List.countP_append]
  have hxo : x ∈ out := (List.mem_append.mp (hbest.perm.symm.subset hx)).resolve_left hxs
  have hpos : 0 < out.countP live := List.countP_pos_iff.mpr ⟨x,hxo,hxl⟩
  have hlt : sel.countP live < sel.length := lt_of_le_of_ne List.countP_le_length fun heq => by
    rw [List.countP_eq_length.mp heq d hd] at hdl
    cases hdl
  have hlen := hbest.length
  omega

/-- Without ties the condition is exact for the list itself. -/
theorem undisturbed_iff (hk : 0 < k) (hnd : (l.map score).Nodup) :
    (select score k l).countP live = min k (l.countP live) ↔ Undisturbed score live k l := by
  refine ⟨fun heq d hd x hx hdl hxl => ?_,fun h => h.countP_select hk⟩
  by_contra hneg
  obtain ⟨hbetter,hworse⟩ := not_or.mp hneg
  rw [not_le] at hbetter hworse
  obtain ⟨out,hbest⟩ := select_best score hk l
  have hlen : (select score k l).length = k := by
    have hle : l.countP (fun y => score x ≤ score y) ≤ l.length := List.countP_le_length
    have hlen := hbest.length
    omega
  have hcount : ∀ p : α → Bool, l.countP p = (select score k l).countP p+out.countP p := fun p => by
    rw [← hbest.perm.countP_eq,List.countP_append]
  have hdisj : ∀ a ∈ select score k l, ∀ b ∈ out, score b < score a := by
    intro a ha b hb
    have hnd' := (hbest.perm.map score).nodup_iff.mpr hnd
    rw [List.map_append] at hnd'
    exact lt_of_le_of_ne (hbest.le a ha b hb) fun heq => (List.nodup_append.mp hnd').2.2 _
      (List.mem_map_of_mem ha) _ (List.mem_map_of_mem hb) heq.symm
  have hdin : d ∈ select score k l := by
    refine (List.mem_append.mp (hbest.perm.symm.subset hd)).resolve_right fun hdo => ?_
    have hall := List.countP_eq_length.mpr fun y hy => decide_eq_true (hdisj y hy d hdo)
    have := hcount fun y => score d < score y
    omega
  have hxout : x ∉ select score k l := by
    intro hxs
    have hnone : out.countP (fun y => score x ≤ score y) = 0 :=
      List.countP_eq_zero.mpr fun y hy => by simpa using hdisj x hxs y hy
    have hle : (select score k l).countP (fun y => score x ≤ score y) ≤ _ := List.countP_le_length
    have := hcount fun y => score x ≤ score y
    omega
  exact absurd heq (countP_select_lt hk hdin hdl hx hxout hxl).ne

section Arrangement

variable {κ : Type*} [LinearOrder κ] (score : α → S) (key : α → κ) (d x : α)

/-- Among equal scores `d` comes first and `x` last. -/
def tieRank (y : α) : ℕ := if key y = key d then 0 else if key y = key x then 2 else 1

/-- By descending score, then by rank. -/
def tieKey (y : α) : OrderDual S ×ₗ (ℕ ×ₗ κ) :=
  toLex (OrderDual.toDual (score y),toLex (tieRank key d x y,key y))

variable {score key d x}

theorem tieKey_lt_iff {a b : α} : tieKey score key d x a < tieKey score key d x b ↔
    score b < score a ∨ score a = score b ∧ (tieRank key d x a < tieRank key d x b ∨
      tieRank key d x a = tieRank key d x b ∧ key a < key b) := by
  simp only [tieKey,Prod.Lex.toLex_lt_toLex,OrderDual.toDual_lt_toDual,EmbeddingLike.apply_eq_iff_eq]

theorem countP_le_add {p q r : α → Prop} [DecidablePred p] [DecidablePred q] [DecidablePred r]
    (h : ∀ y ∈ l, p y → q y ∨ r y) :
    l.countP (fun y => p y) ≤ l.countP (fun y => q y)+l.countP (fun y => r y) := by
  induction l with
  | nil => simp
  | cons a l ih =>
    have ha := h a List.mem_cons_self
    have hl := ih fun y hy => h y (List.mem_cons_of_mem a hy)
    simp only [List.countP_cons,decide_eq_true_eq]
    split_ifs <;> first | omega | tauto

/-- An order in which one element is kept and another is not, when the first can be among the
best `k` and the second outside of them. -/
theorem exists_arrangement (score : α → S) (key : α → κ) (hnd : (l.map key).Nodup) (hd : d ∈ l) (hx : x ∈ l)
    (hne : key d ≠ key x) (hbetter : l.countP (fun y => score d < score y) < k)
    (hworse : k < l.countP (fun y => score x ≤ score y)) :
    ∃ l' : List α, l'.Perm l ∧ l'.Pairwise (fun a b => score b ≤ score a) ∧ d ∈ l'.take k ∧
      x ∉ l'.take k := by
  have htie : (l.map (tieKey score key d x)).Nodup := by
    refine List.Nodup.of_map (fun t => (ofLex (ofLex t).2).2) ?_
    simpa [Function.comp_def,tieKey] using hnd
  have hasc := OrderBy.orderBy_ascending htie
  have hperm := OrderBy.orderBy_perm (tieKey score key d x) l
  refine ⟨OrderBy.orderBy (tieKey score key d x) l,hperm,hasc.imp fun hlt => ?_,?_,?_⟩
  · rcases tieKey_lt_iff.mp hlt with h | h
    · exact h.le
    · exact h.1.ge
  · rw [hasc.mem_take_iff (OrderBy.mem_orderBy.mpr hd),hperm.countP_eq]
    refine lt_of_le_of_lt (List.countP_mono_left fun y hy hlt => ?_) hbetter
    -- nothing of the same score comes before `d`
    rw [decide_eq_true_eq,tieKey_lt_iff] at hlt
    rw [decide_eq_true_eq]
    have hrank : tieRank key d x d = 0 := if_pos rfl
    rcases hlt with h | ⟨_,h | ⟨hzero,hkey⟩⟩
    · exact h
    · rw [hrank] at h
      exact absurd h (Nat.not_lt_zero _)
    · have hyd : key y = key d := by
        by_contra hyd
        rw [hrank,tieRank,if_neg hyd] at hzero
        split at hzero <;> omega
      exact absurd hkey (hyd ▸ lt_irrefl _)
  · rw [hasc.mem_take_iff (OrderBy.mem_orderBy.mpr hx),hperm.countP_eq,not_lt]
    have hbefore : ∀ y ∈ l, score x ≤ score y →
        tieKey score key d x y < tieKey score key d x x ∨ key y = key x := by
      intro y _ hle
      rcases hle.lt_or_eq with hlt | heq
      · exact Or.inl (tieKey_lt_iff.mpr (Or.inl hlt))
      · refine or_iff_not_imp_right.mpr fun hyx => ?_
        have hlast : tieRank key d x x = 2 := by rw [tieRank,if_neg (Ne.symm hne),if_pos rfl]
        have hrank : tieRank key d x y < 2 := by
          rw [tieRank,if_neg hyx]
          split <;> omega
        exact tieKey_lt_iff.mpr (Or.inr ⟨heq.symm,Or.inl (hlast ▸ hrank)⟩)
    have hself : l.countP (fun y => key y = key x) ≤ 1 := by
      have hcount := List.nodup_iff_count_le_one.mp hnd (key x)
      rw [List.count,List.countP_map] at hcount
      simpa [Function.comp_def,beq_eq_decide] using hcount
    have hsplit := countP_le_add hbefore
    omega

end Arrangement

end Live

end TopK
