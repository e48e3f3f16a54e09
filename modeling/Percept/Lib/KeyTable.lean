import Mathlib

/-! A table with a primary key: a list of rows in insertion order, no two of them with
the same key. `INSERT OR IGNORE`, `INSERT OR REPLACE` and `DELETE ... WHERE` keep it so. -/

/-- Rows with pairwise different primary keys. -/
structure KeyTable {ρ κ : Type*} (key : ρ → κ) where
  rows : List ρ
  nodup : (rows.map key).Nodup

namespace KeyTable

variable {ρ κ : Type*} {key : ρ → κ}

@[ext] theorem ext {s t : KeyTable key} (h : s.rows = t.rows) : s = t := by
  cases s; cases t; simp_all

def empty : KeyTable key := ⟨[],List.nodup_nil⟩

@[simp] theorem rows_empty : (empty : KeyTable key).rows = [] := rfl

theorem eq_of_key (t : KeyTable key) {a b : ρ} (ha : a ∈ t.rows) (hb : b ∈ t.rows)
    (h : key a = key b) : a = b := List.inj_on_of_nodup_map t.nodup ha hb h

/-- `DELETE FROM t WHERE p`. -/
def delete (t : KeyTable key) (p : ρ → Bool) : KeyTable key :=
  ⟨t.rows.filter fun r => !p r,t.nodup.sublist (List.filter_sublist.map key)⟩

@[simp] theorem rows_delete (t : KeyTable key) (p : ρ → Bool) :
    (t.delete p).rows = t.rows.filter fun r => !p r := rfl

theorem mem_delete {t : KeyTable key} {p : ρ → Bool} {r : ρ} :
    r ∈ (t.delete p).rows ↔ r ∈ t.rows ∧ p r = false := by simp

variable [DecidableEq κ]

/-- `SELECT ... WHERE key = k`, at most one row. -/
def lookup (t : KeyTable key) (k : κ) : Option ρ := t.rows.find? fun r => key r = k

theorem lookup_eq_some_iff {t : KeyTable key} {k : κ} {r : ρ} :
    t.lookup k = some r ↔ r ∈ t.rows ∧ key r = k := by
  constructor
  · intro h
    exact ⟨List.mem_of_find?_eq_some h,by simpa using List.find?_some h⟩
  · rintro ⟨hr,rfl⟩
    cases h : t.lookup (key r) with
    | none =>
      have hn := List.find?_eq_none.mp h r hr
      simp at hn
    | some s =>
      have hs : key s = key r := by simpa using List.find?_some h
      rw [t.eq_of_key (List.mem_of_find?_eq_some h) hr hs]

/-- `INSERT OR IGNORE`: a row whose key is taken is dropped. -/
def insertOrIgnore (t : KeyTable key) (r : ρ) : KeyTable key :=
  if h : key r ∈ t.rows.map key then t
  else ⟨t.rows ++ [r],by
    rw [List.map_append,List.nodup_append]
    refine ⟨t.nodup,by simp,?_⟩
    rintro a ha b hb rfl
    simp only [List.map_cons,List.map_nil,List.mem_singleton] at hb
    exact h (hb ▸ ha)⟩

theorem insertOrIgnore_of_mem {t : KeyTable key} {r : ρ} (h : key r ∈ t.rows.map key) :
    t.insertOrIgnore r = t := by simp [insertOrIgnore,h]

theorem rows_insertOrIgnore {t : KeyTable key} {r : ρ} (h : key r ∉ t.rows.map key) :
    (t.insertOrIgnore r).rows = t.rows ++ [r] := by simp [insertOrIgnore,h]

theorem mem_insertOrIgnore {t : KeyTable key} {r s : ρ} :
    s ∈ (t.insertOrIgnore r).rows ↔ s ∈ t.rows ∨ (s = r ∧ key r ∉ t.rows.map key) := by
  by_cases h : key r ∈ t.rows.map key
  · simp [insertOrIgnore_of_mem h,h]
  · simp [rows_insertOrIgnore h,h]

/-- `INSERT OR IGNORE` of several rows. -/
def insertAll (t : KeyTable key) (rows : List ρ) : KeyTable key := rows.foldl insertOrIgnore t

theorem insertAll_insertAll (t : KeyTable key) (a b : List ρ) :
    (t.insertAll a).insertAll b = t.insertAll (a ++ b) := (List.foldl_append ..).symm

/-- No row comes from elsewhere, and none twice. -/
theorem insertAll_sublist (t : KeyTable key) (rows : List ρ) :
    (t.insertAll rows).rows.Sublist (t.rows ++ rows) := by
  induction rows generalizing t with
  | nil => simp [insertAll]
  | cons r rows ih =>
    have hfirst : (t.insertOrIgnore r).rows.Sublist (t.rows ++ [r]) := by
      by_cases h : key r ∈ t.rows.map key
      · rw [insertOrIgnore_of_mem h]
        exact List.sublist_append_left _ _
      · rw [rows_insertOrIgnore h]
    have hrest := (ih (t.insertOrIgnore r)).trans (hfirst.append_right rows)
    rwa [List.append_assoc,List.singleton_append] at hrest

/-- Rows whose keys are taken change nothing. -/
theorem insertAll_of_mem {t : KeyTable key} {rows : List ρ}
    (h : ∀ r ∈ rows, key r ∈ t.rows.map key) : t.insertAll rows = t := by
  induction rows with
  | nil => rfl
  | cons r rows ih =>
    have hfirst := insertOrIgnore_of_mem (h r List.mem_cons_self)
    have hrest := ih fun s hs => h s (List.mem_cons_of_mem r hs)
    rwa [insertAll,List.foldl_cons,hfirst,← insertAll]

/-- The first row that carries a new key wins. -/
theorem mem_insertAll {t : KeyTable key} {rows : List ρ} {s : ρ} :
    s ∈ (t.insertAll rows).rows ↔
      s ∈ t.rows ∨ (key s ∉ t.rows.map key ∧ rows.find? (fun r => key r = key s) = some s) := by
  induction rows generalizing t with
  | nil => simp [insertAll]
  | cons r rows ih =>
    have hstep : (t.insertAll (r::rows)).rows = ((t.insertOrIgnore r).insertAll rows).rows := rfl
    rw [hstep,ih,mem_insertOrIgnore]
    by_cases hr : key r ∈ t.rows.map key
    · rw [insertOrIgnore_of_mem hr]
      constructor
      · rintro ((h | ⟨rfl,h⟩) | ⟨hnew,hfind⟩)
        · exact Or.inl h
        · exact absurd hr h
        · have hne : key r ≠ key s := fun h => hnew (h ▸ hr)
          exact Or.inr ⟨hnew,by rw [List.find?_cons_of_neg (by simpa using hne),hfind]⟩
      · rintro (h | ⟨hnew,hfind⟩)
        · exact Or.inl (Or.inl h)
        · have hne : key r ≠ key s := fun h => hnew (h ▸ hr)
          rw [List.find?_cons_of_neg (by simpa using hne)] at hfind
          exact Or.inr ⟨hnew,hfind⟩
    · rw [rows_insertOrIgnore hr]
      by_cases hrs : key r = key s
      · rw [List.find?_cons_of_pos (by simpa using hrs)]
        constructor
        · rintro ((h | ⟨rfl,_⟩) | ⟨hnew,_⟩)
          · exact Or.inl h
          · exact Or.inr ⟨hr,rfl⟩
          · exact absurd (by simp [hrs]) hnew
        · rintro (h | ⟨_,h⟩)
          · exact Or.inl (Or.inl h)
          · exact Or.inl (Or.inr ⟨(Option.some.inj h).symm,hr⟩)
      · rw [List.find?_cons_of_neg (by simpa using hrs)]
        have hkeys : key s ∉ (t.rows ++ [r]).map key ↔ key s ∉ t.rows.map key := by
          simp [Ne.symm hrs]
        rw [hkeys]
        constructor
        · rintro ((h | ⟨rfl,_⟩) | h)
          · exact Or.inl h
          · exact absurd rfl hrs
          · exact Or.inr h
        · rintro (h | h)
          · exact Or.inl (Or.inl h)
          · exact Or.inr h

/-- Every key that was offered is there afterwards. -/
theorem exists_mem_insertAll (t : KeyTable key) {rows : List ρ} {r : ρ} (hr : r ∈ rows) :
    ∃ s ∈ (t.insertAll rows).rows, key s = key r := by
  by_cases hold : key r ∈ t.rows.map key
  · obtain ⟨s,hs,hkey⟩ := List.mem_map.mp hold
    exact ⟨s,mem_insertAll.mpr (Or.inl hs),hkey⟩
  · have hfound : (rows.find? fun x => key x = key r).isSome := by
      rw [List.find?_isSome]
      exact ⟨r,hr,by simp⟩
    obtain ⟨s,hs⟩ := Option.isSome_iff_exists.mp hfound
    have hkey : key s = key r := by simpa using List.find?_some hs
    exact ⟨s,mem_insertAll.mpr (Or.inr ⟨hkey ▸ hold,hkey ▸ hs⟩),hkey⟩

/-- `INSERT OR REPLACE`: the old row of that key goes, the new one comes last. -/
def insertOrReplace (t : KeyTable key) (r : ρ) : KeyTable key :=
  ⟨(t.rows.filter fun s => key s ≠ key r) ++ [r],by
    rw [List.map_append,List.nodup_append]
    refine ⟨t.nodup.sublist (List.filter_sublist.map key),by simp,?_⟩
    rintro a ha b hb rfl
    simp only [List.map_cons,List.map_nil,List.mem_singleton] at hb
    obtain ⟨s,hs,hsa⟩ := List.mem_map.mp ha
    have hne : key s ≠ key r := by simpa using (List.mem_filter.mp hs).2
    exact hne (hsa.trans hb)⟩

theorem mem_insertOrReplace {t : KeyTable key} {r s : ρ} :
    s ∈ (t.insertOrReplace r).rows ↔ (s ∈ t.rows ∧ key s ≠ key r) ∨ s = r := by
  simp [insertOrReplace]

end KeyTable
