import Percept.SearchBest

/-! `search_kn` as its loop: one pass over the rows with four tests and a bounded buffer, whose
first worst hit is found by a scan and replaced by a strictly better one. -/
namespace TopK

variable {α β S : Type*} [LinearOrder S]

theorem firstMin_map (score : β → S) (f : α → β) (l : List α) :
    firstMin score (l.map f) = firstMin (score ∘ f) l := by
  induction l with
  | nil => rfl
  | cons a l ih =>
    rw [List.map_cons,firstMin,ih]
    rfl

theorem insert_map (score : β → S) (f : α → β) (k : ℕ) (heap : List α) (hit : α) :
    insert score k (heap.map f) (f hit) = (insert (score ∘ f) k heap hit).map f := by
  simp only [insert,List.length_map,firstMin_map]
  split
  · rw [List.map_append,List.map_singleton]
  · split
    · rfl
    · rw [apply_ite (List.map f),List.map_set]
      rfl

/-- The selection depends on the scores alone. -/
theorem select_map (score : β → S) (f : α → β) (k : ℕ) (l : List α) :
    select score k (l.map f) = (select (score ∘ f) k l).map f := by
  induction l using List.reverseRecOn with
  | nil => rfl
  | append_singleton l x ih =>
    rw [List.map_append,List.map_singleton,select,select,List.foldl_concat,List.foldl_concat,
      ← select,← select,ih,insert_map]

/-- The best elements are still the best ones when they are sorted. -/
theorem Best.sorted {score : α → S} {k : ℕ} {l sel out : List α} (h : Best score k l sel out) :
    Best score k l (sel.insertionSort fun a b => score b ≤ score a) out := by
  have hperm := List.perm_insertionSort (fun a b => score b ≤ score a) sel
  exact ⟨(hperm.append_right out).trans h.perm,hperm.length_eq.trans h.length,fun a ha =>
    h.le a (hperm.subset ha)⟩

theorem pairwise_sorted (score : α → S) (l : List α) :
    (l.insertionSort fun a b => score b ≤ score a).Pairwise fun a b => score b ≤ score a := by
  have : Std.Total fun a b : α => score b ≤ score a := ⟨fun a b => le_total _ _⟩
  have : IsTrans α fun a b => score b ≤ score a := ⟨fun _ _ _ hab hbc => hbc.trans hab⟩
  exact List.pairwise_insertionSort _ l

end TopK

namespace Percept

/-- `Iterator::min_by`: of equal elements the first. -/
def minBy {α : Type} (cmp : α → α → Ordering) : List α → Option α
  | [] => none
  | a::l => some (l.foldl (fun m x => if cmp m x = .gt then x else m) a)

variable {S : Type} [LinearOrder S]

/-- `insert_top_k`; nothing at the `unwrap` of an empty buffer without room. -/
def insertTopK (heap : List (SearchHit S)) (hit : SearchHit S) (topK : ℕ) :
    Option (List (SearchHit S)) :=
  if heap.length < topK then some (heap ++ [hit])
  else (minBy (fun a b => compare a.1.score b.1.score) heap.zipIdx).map fun worst =>
    if worst.1.score < hit.score then heap.set worst.2 hit else heap

/-- One turn of the loop of `search_kn`. -/
def searchStep (cosine : List UInt32 → List UInt32 → S) (query : List UInt32) (topK : ℕ)
    (filter : VectorFilter) (sourceGlobs kindGlobs : Option (String → Bool))
    (heap : List (SearchHit S)) (row : InMemoryRow) : Option (List (SearchHit S)) :=
  if filter.startMs.any fun s => row.tsMsUtc < s then some heap
  else if filter.endMs.any fun e => e ≤ row.tsMsUtc then some heap
  else if sourceGlobs.any fun g => !g row.sourceId then some heap
  else if kindGlobs.any fun g => !g row.kind then some heap
  else insertTopK heap (VectorIndex.hit cosine query row) topK

/-- `search_kn` over the rows of the mirror; nothing when the loop panics. -/
def searchRows (gs : Globset) (cosine : List UInt32 → List UInt32 → S) (rows : List InMemoryRow)
    (query : List UInt32) (topK : ℕ) (filter : VectorFilter) :
    Except VectorError (Option (List (SearchHit S))) := do
  let sourceGlobs ← gs.compile .decode filter.sourceFilter
  let kindGlobs ← gs.compile .decode filter.kindFilter
  let heap := rows.foldlM (searchStep cosine query topK filter sourceGlobs kindGlobs) []
  return heap.map fun heap => heap.insertionSort fun a b => b.score ≤ a.score

/-- The scan keeps the first of the worst: its own start, or one strictly below it. -/
theorem scan_eq (l : List (SearchHit S)) (a : SearchHit S) (n k : ℕ) :
    (fun w : SearchHit S × ℕ => (w.2,w.1.score)) ((l.zipIdx k).foldl
      (fun m x => if compare m.1.score x.1.score = .gt then x else m) (a,n)) =
      match TopK.firstMin SearchHit.score l with
      | none => (n,a.score)
      | some (i,m) => if m < a.score then (k+i,m) else (n,a.score) := by
  induction l generalizing a n k with
  | nil => rfl
  | cons b l ih =>
    rw [List.zipIdx_cons,List.foldl_cons]
    simp only [compare_gt_iff_gt,TopK.firstMin]
    simp only [compare_gt_iff_gt] at ih
    by_cases hb : b.score < a.score
    · rw [if_pos hb,ih]
      cases TopK.firstMin SearchHit.score l with
      | none => exact (if_pos hb).symm
      | some w =>
        by_cases hw : w.2 < b.score
        · simp only [if_pos hw,if_pos (hw.trans hb)]
          rw [Nat.add_assoc,Nat.add_comm 1]
        · simp only [if_neg hw,if_pos hb]
          rfl
    · rw [if_neg hb,ih]
      cases TopK.firstMin SearchHit.score l with
      | none => exact (if_neg hb).symm
      | some w =>
        by_cases hw : w.2 < b.score
        · simp only [if_pos hw]
          rw [Nat.add_assoc,Nat.add_comm 1]
        · have ha : ¬ w.2 < a.score := fun h => hw (h.trans_le (not_lt.mp hb))
          simp only [if_neg hw,if_neg hb,if_neg ha]

/-- With room for at least one hit the buffer is that of the bounded selection. -/
theorem insertTopK_eq {topK : ℕ} (hk : 0 < topK) (heap : List (SearchHit S)) (hit : SearchHit S) :
    insertTopK heap hit topK = some (TopK.insert SearchHit.score topK heap hit) := by
  rw [insertTopK,TopK.insert]
  split
  · rfl
  · cases heap with
    | nil => exact absurd hk ‹_›
    | cons a l =>
      have hscan := scan_eq l a 0 1
      rw [List.zipIdx_cons,minBy,Option.map_some,Nat.zero_add]
      generalize List.foldl _ _ _ = w at hscan ⊢
      simp only at hscan
      have hmin : TopK.firstMin SearchHit.score (a::l) = some (w.2,w.1.score) := by
        rw [hscan,TopK.firstMin]
        cases TopK.firstMin SearchHit.score l with
        | none => rfl
        | some m =>
          rw [apply_ite some,Nat.add_comm 1]
      rw [hmin]

section Loop

variable {cosine : List UInt32 → List UInt32 → S} {query : List UInt32} {topK : ℕ}
  {filter : VectorFilter} {sourceGlobs kindGlobs : Option (String → Bool)}

/-- The four tests let pass what the filter selects. -/
theorem searchStep_eq (heap : List (SearchHit S)) (row : InMemoryRow) :
    searchStep cosine query topK filter sourceGlobs kindGlobs heap row =
      if VectorIndex.selects filter sourceGlobs kindGlobs row then
        insertTopK heap (VectorIndex.hit cosine query row) topK
      else some heap := by
  have hstart : (filter.startMs.any fun s => row.tsMsUtc < s) =
      !filter.startMs.all fun s => s ≤ row.tsMsUtc := by
    cases filter.startMs <;> simp only [Option.any_none,Option.all_none,Option.any_some,Option.all_some,
      Bool.not_true,← decide_not,not_le]
  have hend : (filter.endMs.any fun e => e ≤ row.tsMsUtc) =
      !filter.endMs.all fun e => row.tsMsUtc < e := by
    cases filter.endMs <;> simp only [Option.any_none,Option.all_none,Option.any_some,Option.all_some,
      Bool.not_true,← decide_not,not_lt]
  have hsource : (sourceGlobs.any fun g => !g row.sourceId) = !matchesOrEmpty sourceGlobs row.sourceId := by
    cases sourceGlobs <;> rfl
  have hkind : (kindGlobs.any fun g => !g row.kind) = !matchesOrEmpty kindGlobs row.kind := by
    cases kindGlobs <;> rfl
  rw [searchStep,hstart,hend,hsource,hkind,VectorIndex.selects]
  generalize (filter.startMs.all _) = started
  generalize (filter.endMs.all _) = ended
  cases started
  · rfl
  cases ended
  · rfl
  cases matchesOrEmpty sourceGlobs row.sourceId
  · rfl
  cases matchesOrEmpty kindGlobs row.kind <;> rfl

/-- The loop selects from the matching rows, in their order. -/
theorem foldlM_searchStep (hk : 0 < topK) (rows : List InMemoryRow) :
    rows.foldlM (searchStep cosine query topK filter sourceGlobs kindGlobs) [] =
      some ((TopK.select (fun row => cosine query row.vector) topK
        (rows.filter (VectorIndex.selects filter sourceGlobs kindGlobs))).map
          (VectorIndex.hit cosine query)) := by
  induction rows using List.reverseRecOn with
  | nil => rfl
  | append_singleton rows row ih =>
    rw [List.foldlM_append,ih,Option.bind_eq_bind,Option.bind_some,List.foldlM_cons,
      searchStep_eq,List.filter_append]
    by_cases hrow : VectorIndex.selects filter sourceGlobs kindGlobs row = true
    · rw [if_pos hrow,insertTopK_eq hk,List.filter_cons_of_pos hrow,List.filter_nil,TopK.select,
        TopK.select,List.foldl_concat,TopK.insert_map]
      rfl
    · rw [if_neg hrow,List.filter_cons_of_neg hrow,List.filter_nil,List.append_nil]
      rfl

theorem sort_hits (rows : List InMemoryRow) :
    (rows.map (VectorIndex.hit cosine query)).insertionSort (fun a b => b.score ≤ a.score) =
      (rows.insertionSort fun a b => cosine query b.vector ≤ cosine query a.vector).map
        (VectorIndex.hit cosine query) :=
  (List.map_insertionSort _ _ (VectorIndex.hit cosine query) rows fun _ _ _ _ => Iff.rfl).symm

/-- What a search returns when both lists of globs compile. -/
theorem searchRows_ok {gs : Globset} (hk : 0 < topK)
    (hsource : gs.compile VectorError.decode filter.sourceFilter = .ok sourceGlobs)
    (hkind : gs.compile VectorError.decode filter.kindFilter = .ok kindGlobs) (rows : List InMemoryRow) :
    searchRows gs cosine rows query topK filter = .ok (some
      (((TopK.select (fun row => cosine query row.vector) topK
        (rows.filter (VectorIndex.selects filter sourceGlobs kindGlobs))).insertionSort
          fun a b => cosine query b.vector ≤ cosine query a.vector).map (VectorIndex.hit cosine query))) := by
  simp only [searchRows,hsource,hkind,foldlM_searchStep hk]
  exact congrArg (fun hits => Except.ok (some hits)) (sort_hits _)

end Loop

/-- The search over the mirror of an index is the one the tools are modelled with. -/
theorem searchRows_index (gs : Globset) (cosine : List UInt32 → List UInt32 → S) (s : VectorIndex)
    (query : List UInt32) {topK : ℕ} (hk : 0 < topK) (filter : VectorFilter) :
    searchRows gs cosine s.rows query topK filter =
      (s.searchKn gs cosine query topK filter).map some := by
  cases hsource : gs.compile VectorError.decode filter.sourceFilter with
  | error e => simp only [searchRows,VectorIndex.searchKn,hsource]; rfl
  | ok sourceGlobs =>
    cases hkind : gs.compile VectorError.decode filter.kindFilter with
    | error e => simp only [searchRows,VectorIndex.searchKn,hsource,hkind]; rfl
    | ok kindGlobs =>
      rw [searchRows_ok hk hsource hkind]
      simp only [VectorIndex.searchKn,hsource,hkind,TopK.select_map]
      exact congrArg (fun hits => Except.ok (some hits)) (sort_hits _).symm

/-- A search fails on a glob that does not compile, or returns the best of the matching rows. -/
theorem search_kn_exact (gs : Globset) (cosine : List UInt32 → List UInt32 → S)
    (rows : List InMemoryRow) (query : List UInt32) (topK : ℕ) (filter : VectorFilter) (hk : 0 < topK) :
    (∃ e, searchRows gs cosine rows query topK filter = .error e ∧
      (gs.compile .decode filter.sourceFilter = .error e ∨
        gs.compile .decode filter.kindFilter = .error e)) ∨
    ∃ sourceGlobs kindGlobs, gs.compile VectorError.decode filter.sourceFilter = .ok sourceGlobs ∧
      gs.compile VectorError.decode filter.kindFilter = .ok kindGlobs ∧
      ∃ chosen left : List InMemoryRow,
        searchRows gs cosine rows query topK filter =
          .ok (some (chosen.map (VectorIndex.hit cosine query))) ∧
        (chosen ++ left).Perm (rows.filter (VectorIndex.selects filter sourceGlobs kindGlobs)) ∧
        chosen.length =
          min topK (rows.countP (VectorIndex.selects filter sourceGlobs kindGlobs)) ∧
        (chosen.Pairwise fun a b => cosine query b.vector ≤ cosine query a.vector) ∧
        (∀ a ∈ chosen, ∀ b ∈ left, cosine query b.vector ≤ cosine query a.vector) ∧
        ((rows.map (·.eventId)).Nodup → (chosen.map (·.eventId)).Nodup) := by
  cases hsource : gs.compile VectorError.decode filter.sourceFilter with
  | error e =>
    refine Or.inl ⟨e,?_,Or.inl rfl⟩
    simp only [searchRows,hsource]
    rfl
  | ok sourceGlobs =>
    cases hkind : gs.compile VectorError.decode filter.kindFilter with
    | error e =>
      refine Or.inl ⟨e,?_,Or.inr rfl⟩
      simp only [searchRows,hsource,hkind]
      rfl
    | ok kindGlobs =>
      obtain ⟨left,hbest⟩ := TopK.select_best (fun row : InMemoryRow => cosine query row.vector) hk
        (rows.filter (VectorIndex.selects filter sourceGlobs kindGlobs))
      have hsorted := hbest.sorted
      have hlength := hsorted.length
      rw [← List.countP_eq_length_filter] at hlength
      refine Or.inr ⟨sourceGlobs,kindGlobs,rfl,rfl,_,left,searchRows_ok hk hsource hkind rows,hsorted.perm,
        hlength,TopK.pairwise_sorted _ _,hsorted.le,fun hnodup => ?_⟩
      have hmatching := hnodup.sublist (List.filter_sublist
        (p := VectorIndex.selects filter sourceGlobs kindGlobs).map fun row => row.eventId)
      have hboth := (hsorted.perm.map fun row => row.eventId).nodup_iff.mpr hmatching
      rw [List.map_append] at hboth
      exact (List.nodup_append.mp hboth).1

theorem search_kn_exact_two_of_three :
    let rows : List InMemoryRow :=
      [⟨1,"s","k",1,false,[5]⟩,⟨2,"s","k",2,false,[9]⟩,⟨3,"s","k",3,false,[5]⟩]
    ∃ chosen left : List InMemoryRow, searchRows literalGlobs firstComponent rows [] 2 {} =
        .ok (some (chosen.map (VectorIndex.hit firstComponent []))) ∧
      (chosen ++ left).Perm rows ∧ chosen.length = 2 := by
  intro rows
  rcases search_kn_exact literalGlobs firstComponent rows [] 2 {} (by decide) with
    ⟨e,-,hsource | hkind⟩ |
    ⟨sourceGlobs,kindGlobs,hsource,hkind,chosen,left,hfound,hperm,hlength,-⟩
  · cases hsource
  · cases hkind
  · cases hsource
    cases hkind
    exact ⟨chosen,left,hfound,hperm,hlength⟩

end Percept
