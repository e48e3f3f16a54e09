import Percept.SweepKept

/-! What `max_bytes` bounds: the loop adds up characters, and the `DELETE` it builds has one
parameter for each row beyond the budget. -/
namespace Percept

open ColdStore

/-- UTF-8 bytes of `semantic`. -/
def EventRow.bytes (r : EventRow) : ℕ := r.semantic.toText.utf8ByteSize

def totalBytes (rows : List EventRow) : ℕ := (rows.map EventRow.bytes).sum

/-- The characters of a run as the loop counts them, up to `i64::MAX`. -/
def countedChars (run : List EventRow) : ℕ := min (totalChars run) (2^63-1)

/-- The rows of the pair are within the budget, in bytes. -/
def BytesWithin (s : ColdStore) (p : Pair) (maxBytes : Int64) : Prop :=
  (totalBytes (s.events.rows.filter (ofPair p)) : ℤ) ≤ maxBytes.toInt

/-- All but so many of the oldest rows fit as one statement can delete, and a newest-first run
that fits by its characters fits by its bytes. -/
structure Boundable (l : List EventRow) (maxBytes : Int64) : Prop where
  deletable : (countedChars (l.take (l.length-sqliteMaxVariables)) : ℤ) ≤ maxBytes.toInt
  bytes : ∀ k ≤ l.length, (countedChars (l.take k) : ℤ) ≤ maxBytes.toInt →
    (totalBytes (l.take k) : ℤ) ≤ maxBytes.toInt

section

variable {s : ColdStore} {p : Pair} {maxBytes : Int64} {l : List EventRow} {j k : ℕ}

theorem totalBytes_take_le (h : k ≤ j) : totalBytes (l.take k) ≤ totalBytes (l.take j) :=
  List.Sublist.sum_le_sum ((List.take_sublist_take_left h).map _) (by simp)

theorem countedChars_take_zero : countedChars (l.take 0) = 0 := by
  simp [countedChars,totalChars]

/-- A run is kept when its characters fit; the empty run is always kept. -/
theorem le_keptByBytes (hk : k ≤ l.length) :
    k ≤ keptByBytes maxBytes l ↔ k = 0 ∨ (countedChars (l.take k) : ℤ) ≤ maxBytes.toInt := by
  cases k with
  | zero => simp
  | succ i =>
    rw [Nat.succ_le_iff,keptByBytes,lt_fitting_iff _ _ _ _ hk,Nat.zero_add]
    simp [countedChars,totalChars]

theorem bytesWithin_of_cut {s' : ColdStore} (h : s.Cut p j s') :
    BytesWithin s' p maxBytes ↔ (totalBytes ((s.newestFirst p).take j) : ℤ) ≤ maxBytes.toInt := by
  have hsum : totalBytes (s'.events.rows.filter (ofPair p)) = totalBytes (s'.newestFirst p) :=
    ((s'.newestFirst_perm p).map _).sum_eq.symm
  rw [BytesWithin,hsum,h.self]

/-- With a budget that is not negative the kept run fits by its characters. -/
theorem countedChars_kept (hbytes : 0 ≤ maxBytes.toInt) :
    (countedChars (l.take (keptByBytes maxBytes l)) : ℤ) ≤ maxBytes.toInt := by
  have hle : keptByBytes maxBytes l ≤ l.length := fitting_le _ _ _
  rcases (le_keptByBytes hle).mp le_rfl with hzero | hfits
  · rw [hzero,countedChars_take_zero]
    exact hbytes
  · exact hfits

theorem boundable_iff : Boundable l maxBytes ↔ l.length-keptByBytes maxBytes l ≤ sqliteMaxVariables ∧
    (totalBytes (l.take (keptByBytes maxBytes l)) : ℤ) ≤ maxBytes.toInt := by
  have hle : keptByBytes maxBytes l ≤ l.length := fitting_le _ _ _
  have hsub : l.length-sqliteMaxVariables ≤ l.length := Nat.sub_le _ _
  have hswap : l.length-keptByBytes maxBytes l ≤ sqliteMaxVariables ↔
      l.length-sqliteMaxVariables ≤ keptByBytes maxBytes l := by omega
  rw [hswap]
  constructor
  · rintro ⟨hdel,hbytes⟩
    refine ⟨(le_keptByBytes hsub).mpr (Or.inr hdel),hbytes _ hle (countedChars_kept ?_)⟩
    exact le_trans (Int.natCast_nonneg _) hdel
  · rintro ⟨hdel,hbytes⟩
    refine ⟨?_,fun k hk hfits => ?_⟩
    · rcases (le_keptByBytes hsub).mp hdel with hzero | hfits
      · rw [List.take_eq_nil_iff.mpr (Or.inl hzero)]
        exact le_trans (Int.natCast_nonneg _) hbytes
      · exact hfits
    · have hkept := totalBytes_take_le (l := l) ((le_keptByBytes hk).mpr (Or.inr hfits))
      omega

/-- A sweep of this dimension succeeds and leaves the pair within its bytes exactly when the log
is boundable. -/
theorem sweep_max_bytes_within_iff (s : ColdStore) (p : Pair) (maxBytes : Int64) :
    (∃ dropped s', s.sweepMaxBytes p maxBytes false = .ok (dropped,s') ∧ BytesWithin s' p maxBytes) ↔
      Boundable (s.newestFirst p) maxBytes := by
  have hreal := s.sweepMaxBytes_real p maxBytes
  rw [← length_newestFirst] at hreal
  rw [boundable_iff]
  split_ifs at hreal with hmany
  · refine iff_of_false ?_ fun h => absurd h.1 (not_le.mpr hmany)
    rintro ⟨_,_,hok,_⟩
    cases hreal.symm.trans hok
  · obtain ⟨s',hok,hcut⟩ := hreal
    rw [and_iff_right (not_lt.mp hmany),← bytesWithin_of_cut hcut]
    constructor
    · rintro ⟨_,_,hok',hwithin⟩
      cases hok.symm.trans hok'
      exact hwithin
    · intro hwithin
      exact ⟨_,s',hok,hwithin⟩

/-- One row whose text has three characters and four bytes. -/
def accented : ColdStore := ColdStore.openInMemory.append [.required 1 "s" "k" 1 (.string "é")]

/-- The budget is three, and four bytes stay. -/
theorem sweep_max_bytes_counts_characters : ∃ s', accented.sweepMaxBytes ("s","k") 3 false = .ok (0,s') ∧
    totalBytes (s'.events.rows.filter (ofPair ("s","k"))) = 4 ∧ ¬BytesWithin s' ("s","k") 3 := by
  refine ⟨accented,rfl,by decide,?_⟩
  unfold BytesWithin
  decide

end

end Percept
