import Percept.Lib.OrderBy

/-! Keyset pagination. A page holds the first `limit` rows after an anchor key in key
order; the anchor of the next page is the key of the last row. The content may change
between two pages: a walk is a list of contents, one for each page request. -/
namespace Keyset

open OrderBy

variable {ρ κ : Type*} [LinearOrder κ]

/-- Every row is after the absent anchor. -/
def after (key : ρ → κ) (anchor : Option κ) (r : ρ) : Bool :=
  match anchor with
  | none => true
  | some k => k < key r

@[simp] theorem filter_after_none (key : ρ → κ) (rows : List ρ) :
    rows.filter (after key none) = rows := List.filter_eq_self.mpr fun _ _ => rfl

def page (key : ρ → κ) (limit : ℕ) (anchor : Option κ) (rows : List ρ) : List ρ :=
  (orderBy key (rows.filter (after key anchor))).take limit

def lastKey (key : ρ → κ) (rows : List ρ) : Option κ := rows.getLast?.map key

/-- Page requests in a row, each with the last key of the page before it. A full page may
be followed by another one; the walk is done when its last page is short. -/
inductive Walk (key : ρ → κ) (limit : ℕ) :
    Option κ → List (List ρ) → List (List ρ) → Bool → Prop
  | stop {anchor : Option κ} {rows : List ρ} {done : Bool}
      (hdone : done = true ↔ (page key limit anchor rows).length < limit) :
      Walk key limit anchor [rows] [page key limit anchor rows] done
  | next {anchor : Option κ} {rows : List ρ} {contents pages : List (List ρ)} {done : Bool}
      (hfull : (page key limit anchor rows).length = limit)
      (hrest : Walk key limit (lastKey key (page key limit anchor rows)) contents pages done) :
      Walk key limit anchor (rows::contents) (page key limit anchor rows::pages) done

section Page

variable {key : ρ → κ} {limit : ℕ} {anchor : Option κ} {rows : List ρ}

theorem mem_of_mem_page {r : ρ} (h : r ∈ page key limit anchor rows) :
    r ∈ rows ∧ after key anchor r = true := by
  have hr := List.mem_of_mem_take h
  simpa using hr

theorem page_ascending (limit : ℕ) (anchor : Option κ) (hnd : (rows.map key).Nodup) :
    Ascending key (page key limit anchor rows) :=
  (orderBy_ascending (hnd.sublist (List.filter_sublist.map key))).sublist (List.take_sublist _ _)

/-- A short page is everything after the anchor. -/
theorem page_short (h : (page key limit anchor rows).length < limit) :
    page key limit anchor rows = orderBy key (rows.filter (after key anchor)) := by
  unfold page at h ⊢
  apply List.take_of_length_le
  rw [List.length_take] at h
  omega

theorem exists_lastKey (hfull : (page key limit anchor rows).length = limit) (hlimit : 0 < limit) :
    ∃ l ∈ page key limit anchor rows, lastKey key (page key limit anchor rows) = some (key l) := by
  have hne : page key limit anchor rows ≠ [] := by
    intro h
    rw [h] at hfull
    exact hlimit.ne hfull
  exact ⟨_,List.getLast_mem hne,by simp [lastKey,List.getLast?_eq_some_getLast hne]⟩

theorem le_last_of_mem {l r : ρ} {p : List ρ} (ha : Ascending key p)
    (hl : lastKey key p = some (key l)) (hr : r ∈ p) : key r ≤ key l := by
  cases hp : p.getLast? with
  | none => simp [lastKey,hp] at hl
  | some m =>
    have hm : key m = key l := by simpa [lastKey,hp] using hl
    obtain ⟨q,rfl⟩ := List.getLast?_eq_some_iff.mp hp
    rw [← hm]
    rcases List.mem_append.mp hr with hq | hq
    · exact ((List.pairwise_append.mp ha).2.2 r hq m (by simp)).le
    · rw [List.mem_singleton.mp hq]

/-- A row after the anchor is on the page or after its last row. -/
theorem mem_page_or_after (hnd : (rows.map key).Nodup) (hlimit : 0 < limit)
    (hfull : (page key limit anchor rows).length = limit) {r : ρ} (hr : r ∈ rows)
    (ha : after key anchor r = true) : r ∈ page key limit anchor rows ∨
      after key (lastKey key (page key limit anchor rows)) r = true := by
  have hsorted : Ascending key (orderBy key (rows.filter (after key anchor))) :=
    orderBy_ascending (hnd.sublist (List.filter_sublist.map key))
  have hmem : r ∈ orderBy key (rows.filter (after key anchor)) := by simp [hr,ha]
  rw [← List.take_append_drop limit (orderBy key (rows.filter (after key anchor)))] at hmem hsorted
  rcases List.mem_append.mp hmem with hpage | hlater
  · exact Or.inl hpage
  · obtain ⟨l,hl,hkey⟩ := exists_lastKey hfull hlimit
    right
    rw [hkey]
    simpa [after] using (List.pairwise_append.mp hsorted).2.2 l hl r hlater

theorem after_of_after_lastKey (hfull : (page key limit anchor rows).length = limit)
    (hlimit : 0 < limit) {r : ρ}
    (h : after key (lastKey key (page key limit anchor rows)) r = true) :
    after key anchor r = true := by
  obtain ⟨l,hl,hkey⟩ := exists_lastKey hfull hlimit
  rw [hkey] at h
  have hla := (mem_of_mem_page hl).2
  cases anchor with
  | none => rfl
  | some k =>
    simp only [after,decide_eq_true_eq] at h hla ⊢
    exact hla.trans h

end Page

namespace Walk

variable {key : ρ → κ} {limit : ℕ} {anchor : Option κ} {contents pages : List (List ρ)}
  {done : Bool}

/-- Every row returned was stored when its page was read. -/
theorem forall_mem (h : Walk key limit anchor contents pages done) {p : ρ → Prop}
    (hp : ∀ rows ∈ contents, ∀ r ∈ rows, p r) : ∀ r ∈ pages.flatten, p r := by
  induction h with
  | stop =>
    intro r hr
    have hr' := mem_of_mem_page (by simpa using hr)
    exact hp _ (by simp) r hr'.1
  | @next anchor rows contents pages _ hfull _ ih =>
    intro r hr
    rcases List.mem_append.mp (List.flatten_cons ▸ hr) with hpage | hrest
    · exact hp rows (by simp) r (mem_of_mem_page hpage).1
    · exact ih (fun rows hrows => hp rows (List.mem_cons_of_mem _ hrows)) r hrest

theorem after_anchor (h : Walk key limit anchor contents pages done) (hlimit : 0 < limit) :
    ∀ r ∈ pages.flatten, after key anchor r = true := by
  induction h with
  | stop =>
    intro r hr
    exact (mem_of_mem_page (by simpa using hr)).2
  | next hfull _ ih =>
    intro r hr
    rcases List.mem_append.mp (List.flatten_cons ▸ hr) with hpage | hrest
    · exact (mem_of_mem_page hpage).2
    · exact after_of_after_lastKey hfull hlimit (ih r hrest)

/-- The pages of a walk concatenate to one strictly increasing list. -/
theorem ascending (h : Walk key limit anchor contents pages done) (hlimit : 0 < limit)
    (hnd : ∀ rows ∈ contents, (rows.map key).Nodup) : Ascending key pages.flatten := by
  induction h with
  | stop => simpa using page_ascending _ _ (hnd _ (by simp))
  | @next anchor rows contents pages _ hfull hrest ih =>
    have hpage := page_ascending limit anchor (hnd rows (by simp))
    rw [List.flatten_cons]
    refine List.pairwise_append.mpr ⟨hpage,ih fun r hr => hnd r (by simp [hr]),?_⟩
    intro a ha b hb
    obtain ⟨l,_,hkey⟩ := exists_lastKey hfull hlimit
    have hbl := hrest.after_anchor hlimit b hb
    rw [hkey] at hbl
    simp only [after,decide_eq_true_eq] at hbl
    exact (le_last_of_mem hpage hkey ha).trans_lt hbl

/-- A row that is stored at every page request is returned. The invariant: it is on an
earlier page or still after the anchor. -/
theorem complete (h : Walk key limit anchor contents pages done) (hlimit : 0 < limit)
    (hnd : ∀ rows ∈ contents, (rows.map key).Nodup) (hdone : done = true) {r : ρ}
    (hr : ∀ rows ∈ contents, r ∈ rows) (ha : after key anchor r = true) :
    r ∈ pages.flatten := by
  induction h with
  | @stop anchor rows _ hshort =>
    have hrow := hr rows (by simp)
    simp [page_short (hshort.mp hdone),hrow,ha]
  | @next anchor rows contents pages _ hfull hrest ih =>
    rw [List.flatten_cons,List.mem_append]
    rcases mem_page_or_after (hnd rows (by simp)) hlimit hfull (hr rows (by simp)) ha with
      hpage | hlater
    · exact Or.inl hpage
    · exact Or.inr (ih (fun r hr => hnd r (by simp [hr])) hdone
        (fun rows h => hr rows (by simp [h])) hlater)

/-- Every page but the last is full, and the last one too in a walk that is not done. -/
theorem full_pages (h : Walk key limit anchor contents pages done) :
    (pages.length-1)*limit ≤ pages.flatten.length ∧
      (done = false → pages.length*limit ≤ pages.flatten.length) := by
  induction h with
  | @stop anchor rows done hdone =>
    refine ⟨by simp,fun hfalse => ?_⟩
    have hfull : ¬ (page key limit anchor rows).length < limit := by simp [← hdone,hfalse]
    simpa using Nat.le_of_not_lt hfull
  | @next anchor rows contents pages done hfull hrest ih =>
    have hne : 0 < pages.length := by cases hrest <;> simp
    have hsplit : pages.length*limit = (pages.length-1)*limit+limit := by
      rw [← Nat.succ_mul]
      congr
      omega
    refine ⟨?_,fun hfalse => ?_⟩
    · simp only [List.length_cons,List.flatten_cons,List.length_append,hfull,Nat.add_sub_cancel]
      omega
    · have hrest' := ih.2 hfalse
      simp only [List.length_cons,List.flatten_cons,List.length_append,hfull,Nat.add_mul,one_mul]
      omega

section Quiet

variable {rows : List ρ} (hnd : (rows.map key).Nodup) (hsame : ∀ c ∈ contents, c = rows)
include hnd hsame

/-- With an unchanged content a walk that is done returns everything after its anchor. -/
theorem flatten_eq (h : Walk key limit anchor contents pages done) (hlimit : 0 < limit)
    (hdone : done = true) :
    pages.flatten = orderBy key (rows.filter (after key anchor)) := by
  have hnd' : ∀ c ∈ contents, (c.map key).Nodup := fun c hc => hsame c hc ▸ hnd
  refine (h.ascending hlimit hnd').ext
    (orderBy_ascending (hnd.sublist (List.filter_sublist.map key))) fun r => ?_
  rw [mem_orderBy,List.mem_filter]
  constructor
  · intro hr
    exact ⟨h.forall_mem (fun c hc s hs => hsame c hc ▸ hs) r hr,h.after_anchor hlimit r hr⟩
  · rintro ⟨hr,ha⟩
    exact h.complete hlimit hnd' hdone (fun c hc => hsame c hc ▸ hr) ha

theorem length_flatten_le (h : Walk key limit anchor contents pages done) (hlimit : 0 < limit) :
    pages.flatten.length ≤ rows.length := by
  have hasc := h.ascending hlimit fun c hc => hsame c hc ▸ hnd
  have hsub : pages.flatten ⊆ rows := fun r hr => h.forall_mem (fun c hc s hs => hsame c hc ▸ hs) r hr
  exact (hasc.nodup_keys.of_map key).subperm hsub |>.length_le

/-- The number of page requests that an unchanged content takes. -/
theorem length_pages_le (h : Walk key limit anchor contents pages done) (hlimit : 0 < limit) :
    pages.length ≤ rows.length/limit+1 := by
  have hle := h.full_pages.1.trans (h.length_flatten_le hnd hsame hlimit)
  have hpages := (Nat.le_div_iff_mul_le hlimit).mpr hle
  omega

theorem done_of_length (h : Walk key limit anchor contents pages done) (hlimit : 0 < limit)
    (hlong : rows.length/limit < pages.length) : done = true := by
  by_contra hopen
  have hle := (h.full_pages.2 (by simpa using hopen)).trans (h.length_flatten_le hnd hsame hlimit)
  exact absurd ((Nat.le_div_iff_mul_le hlimit).mpr hle) (Nat.not_le.mpr hlong)

end Quiet

end Walk

end Keyset
