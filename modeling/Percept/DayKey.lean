import Percept.CivilDate

/-! The `day` column of a stored event against the UTC day of its timestamp. Both divisions of
`day_of` round toward zero, the UTC day is the floor. -/
namespace Percept

open Gregorian

/-- The days from 1970-01-01 to the UTC day of a timestamp. -/
def utcDay (tsMsUtc : Int64) : ℤ := tsMsUtc.toInt/86400000

/-- A date as the key of a partition, `2026-05-17`. -/
def dateKey (a : Date) : String := zeroPad 4 a.year ++ "-" ++ zeroPad 2 a.month ++ "-" ++ zeroPad 2 a.day

/-! ### The key determines the date -/

/-- The digits of a padded number. -/
def padded (width n : ℕ) : List Char :=
  List.replicate (width-(Nat.toDigits 10 n).length) '0' ++ Nat.toDigits 10 n

theorem isDigit_padded {width n : ℕ} {c : Char} (h : c ∈ padded width n) : c.isDigit = true := by
  rcases List.mem_append.mp h with h | h
  · rw [List.eq_of_mem_replicate h]
    rfl
  · exact Nat.isDigit_of_mem_toDigits (by decide) (by decide) h

theorem ofDigitChars_padded (width n : ℕ) : Nat.ofDigitChars 10 (padded width n) 0 = n := by
  rw [padded,Nat.ofDigitChars_append,Nat.ofDigitChars_replicate_zero,Nat.mul_zero,
    Nat.ofDigitChars_ten_toDigits]

theorem length_padded {width n : ℕ} (hpos : 0 < width) (h : n < 10^width) :
    (padded width n).length = width := by
  have hle := (Nat.length_toDigits_le_iff (n := n) (by decide) hpos).mpr h
  rw [padded,List.length_append,List.length_replicate]
  omega

theorem toList_zeroPad (width : ℕ) (n : ℤ) : (zeroPad width n).toList =
    if n < 0 then '-'::padded (width-1) n.natAbs else padded width n.natAbs := by
  have hlength : n.natAbs.repr.length = (Nat.toDigits 10 n.natAbs).length := by
    rw [← String.length_toList,Nat.toList_repr]
  have hminus : "-".length = 1 := rfl
  unfold zeroPad
  split_ifs
  · simp [padded,Nat.toString_eq_repr,hlength,hminus]
  · simp [padded,Nat.toString_eq_repr,hlength]

theorem zeroPad_injective (width : ℕ) : Function.Injective (zeroPad width) := fun m n h => by
  have hlist := congrArg String.toList h
  have hminus : ∀ w k, '-' ∉ padded w k := fun w k hc => absurd (isDigit_padded hc) (by decide)
  rw [toList_zeroPad,toList_zeroPad] at hlist
  split_ifs at hlist with hm hn hn
  · have habs := congrArg (Nat.ofDigitChars 10 · 0) (List.cons.inj hlist).2
    simp only [ofDigitChars_padded] at habs
    omega
  · exact absurd (hlist ▸ List.mem_cons_self) (hminus _ _)
  · exact absurd (hlist ▸ List.mem_cons_self) (hminus _ _)
  · have habs := congrArg (Nat.ofDigitChars 10 · 0) hlist
    simp only [ofDigitChars_padded] at habs
    omega

theorem length_zeroPad_two {n : ℕ} (h : n < 100) : (zeroPad 2 n).toList.length = 2 := by
  rw [toList_zeroPad,if_neg (by omega),Int.natAbs_natCast,length_padded (by decide) h]

theorem dateKey_injective : Function.Injective dateKey := fun a b h => by
  have hmonth : ∀ c : Date, c.month < 100 := fun c => by have := c.month_mem.2; omega
  have hday : ∀ c : Date, c.day < 100 := fun c => by have := c.day_le; omega
  have hlist := congrArg String.toList h
  simp only [dateKey,String.toList_append] at hlist
  obtain ⟨hlist,hd⟩ := List.append_inj' hlist (by
    rw [length_zeroPad_two (hday a),length_zeroPad_two (hday b)])
  obtain ⟨hlist,-⟩ := List.append_inj' hlist rfl
  obtain ⟨hlist,hm⟩ := List.append_inj' hlist (by
    rw [length_zeroPad_two (hmonth a),length_zeroPad_two (hmonth b)])
  obtain ⟨hy,-⟩ := List.append_inj' hlist rfl
  refine Date.ext (zeroPad_injective 4 (String.toList_inj.mp hy)) ?_ ?_
  · exact Int.ofNat_inj.mp (zeroPad_injective 2 (String.toList_inj.mp hm))
  · exact Int.ofNat_inj.mp (zeroPad_injective 2 (String.toList_inj.mp hd))

/-! ### The day that is written -/

theorem tdiv_day (ts : ℤ) : (ts.tdiv 1000).tdiv 86400 = ts.tdiv 86400000 := by
  rcases le_total 0 ts with h | h
  · rw [Int.tdiv_eq_ediv_of_nonneg h,Int.tdiv_eq_ediv_of_nonneg (by omega),Int.tdiv_eq_ediv_of_nonneg h]
    omega
  · rw [tdiv_of_nonpos h,tdiv_of_nonpos (by omega),tdiv_of_nonpos h]
    omega

/-- The division toward zero is the floor for all times from 1970 on and at every midnight. -/
theorem tdiv_eq_utcDay_iff (ts : ℤ) : ts.tdiv 86400000 = ts/86400000 ↔ 0 ≤ ts ∨ 86400000 ∣ ts := by
  rcases le_total 0 ts with h | h
  · exact iff_of_true (Int.tdiv_eq_ediv_of_nonneg h) (.inl h)
  · rw [tdiv_of_nonpos h]
    omega

theorem toInt_daysSinceEpoch (ts : Int64) : (ts/1000/86400).toInt = ts.toInt.tdiv 86400000 := by
  have hmillis : (1000 : Int64).toInt = 1000 := rfl
  have hsecs : (86400 : Int64).toInt = 86400 := rfl
  rw [Int64.toInt_div_of_ne_right _ _ (by decide),Int64.toInt_div_of_ne_right _ _ (by decide),hmillis,hsecs,
    tdiv_day]

/-- The day numbers of `day_of` are in the range of `civil_date`. -/
theorem abs_daysSinceEpoch_le (ts : Int64) :
    |(ts/1000/86400).toInt| ≤ Int64.maxValue.toInt/86400000+1 := by
  have hlo := ts.le_toInt
  have hhi := ts.toInt_lt
  have hmax : Int64.maxValue.toInt = 2^63-1 := rfl
  rw [toInt_daysSinceEpoch,hmax,abs_le]
  rcases le_total 0 ts.toInt with h | h
  · rw [Int.tdiv_eq_ediv_of_nonneg h]
    omega
  · rw [tdiv_of_nonpos h]
    omega

theorem dayOf_eq (ts : Int64) : dayOf ts = dateKey (after (ts.toInt.tdiv 86400000)) := by
  have hrange := abs_daysSinceEpoch_le ts
  have hmax : Int64.maxValue.toInt = 2^63-1 := rfl
  rw [hmax,abs_le] at hrange
  obtain ⟨hyear,hmonth,hday⟩ := (civilDate_exact (ts/1000/86400) (by omega) (by omega)).1
  rw [← toInt_daysSinceEpoch,dateKey,← hyear,← hmonth,← hday]
  rfl

theorem dayOf_eq_utcDay_iff (ts : Int64) :
    dayOf ts = dateKey (after (utcDay ts)) ↔ 0 ≤ ts.toInt ∨ 86400000 ∣ ts.toInt := by
  rw [dayOf_eq,dateKey_injective.eq_iff,after_injective.eq_iff,utcDay,tdiv_eq_utcDay_iff]

/-- Before 1970 every time but midnight is filed under the day that follows. -/
theorem dayOf_before_epoch {ts : Int64} (hneg : ts.toInt < 0) (hmidnight : ¬ 86400000 ∣ ts.toInt) :
    dayOf ts = dateKey (after (utcDay ts)).next := by
  have htrunc : ts.toInt.tdiv 86400000 = utcDay ts+1 := by
    rw [tdiv_of_nonpos hneg.le,utcDay]
    omega
  rw [dayOf_eq,htrunc,after_add_one]

/-- The keys of two events are the dates of their UTC days, and tell the days apart, exactly when both
timestamps are not before 1970 or at midnight. -/
theorem day_key_iff (ts ts' : Int64) :
    (dayOf ts = dateKey (after (utcDay ts)) ∧ dayOf ts' = dateKey (after (utcDay ts')) ∧
      (dayOf ts = dayOf ts' ↔ utcDay ts = utcDay ts')) ↔
    (0 ≤ ts.toInt ∨ 86400000 ∣ ts.toInt) ∧ (0 ≤ ts'.toInt ∨ 86400000 ∣ ts'.toInt) := by
  constructor
  · rintro ⟨hkey,hkey',-⟩
    exact ⟨(dayOf_eq_utcDay_iff ts).mp hkey,(dayOf_eq_utcDay_iff ts').mp hkey'⟩
  · rintro ⟨h,h'⟩
    have hkey := (dayOf_eq_utcDay_iff ts).mpr h
    have hkey' := (dayOf_eq_utcDay_iff ts').mpr h'
    refine ⟨hkey,hkey',?_⟩
    rw [hkey,hkey',dateKey_injective.eq_iff,after_injective.eq_iff]

theorem day_key_fails :
    dayOf (-1) = "1970-01-01" ∧ dateKey (after (utcDay (-1))) = "1969-12-31" ∧
    dayOf (-1) ≠ dateKey (after (utcDay (-1))) ∧
    ¬ (dayOf (-1) = dayOf 0 ↔ utcDay (-1) = utcDay 0) := by
  have hkey : dayOf (-1) = "1970-01-01" := by decide
  have hdate : dateKey (after (utcDay (-1))) = "1969-12-31" := by decide
  refine ⟨hkey,hdate,?_,by decide⟩
  rw [hkey,hdate]
  decide

end Percept
