import Percept.ColdStore
import Percept.Lib.Gregorian

/-! The day number behind the `day` column. The closed form for the year of a 400-year era, in exact
arithmetic and then in the 64-bit arithmetic of the source, gives the Gregorian date of a day number. -/
namespace Percept

open Gregorian

/-! ### The year of an era -/

/-- The year, counted from March, of a day of an era of 146097 days. -/
def yearOfEra (doe : ℕ) : ℕ := (doe-doe/1460+doe/36524-doe/146096)/365

/-- The day where a year of an era starts. -/
def eraYearStart (yoe : ℕ) : ℕ := 365*yoe+yoe/4-yoe/100

/-- A day of an era by century, group of four years, year and day. Only the last year of a group
has a day 365, and in the last group of a century only the last century of the era. -/
structure EraDay where
  century : ℕ
  four : ℕ
  year : ℕ
  day : ℕ
  century_le : century ≤ 3
  four_le : four ≤ 24
  year_le : year ≤ 3
  day_le : day ≤ 365
  of_common : year < 3 → day < 365
  of_century : day = 365 → four = 24 → century = 3

namespace EraDay

def doe (x : EraDay) : ℕ := 36524*x.century+1461*x.four+365*x.year+x.day

theorem exists_doe {doe : ℕ} (h : doe < 146097) : ∃ x : EraDay, x.doe = doe := by
  obtain ⟨c,hc⟩ : ∃ c, c = min (doe/36524) 3 := ⟨_,rfl⟩
  obtain ⟨k,hk⟩ : ∃ k, k = (doe-36524*c)/1461 := ⟨_,rfl⟩
  obtain ⟨j,hj⟩ : ∃ j, j = min ((doe-36524*c-1461*k)/365) 3 := ⟨_,rfl⟩
  refine ⟨⟨c,k,j,doe-36524*c-1461*k-365*j,?_,?_,?_,?_,?_,?_⟩,?_⟩
  case refine_7 => simp only [EraDay.doe]; omega
  all_goals omega

/-- The corrections of the closed form: one day for each leap day that has passed. -/
theorem yearOfEra_doe (x : EraDay) : yearOfEra x.doe = 100*x.century+4*x.four+x.year := by
  obtain ⟨c,k,j,r,hc,hk,hj,hr,hj3,hr'⟩ := x
  simp only [doe]
  have hcentury : (36524*c+1461*k+365*j+r)/36524 = c+(36524*c+1461*k+365*j+r)/146096 := by
    have hs : 1461*k+365*j+r < 36524 ∨ 1461*k+365*j+r = 36524 ∧ c = 3 := by omega
    obtain hs | ⟨hs,rfl⟩ := hs
    · have hquot : (36524*c+1461*k+365*j+r)/36524 = c := by omega
      have hzero : (36524*c+1461*k+365*j+r)/146096 = 0 := by omega
      omega
    · have hfull : 36524*3+1461*k+365*j+r = 146096 := by omega
      rw [hfull]
  have hfour : (36524*c+1461*k+365*j+r)/1460 = 25*c+k+(24*c+k+365*j+r)/1460 := by omega
  have hday : (24*c+k+365*j+r)/1460 ≤ r ∧ r < (24*c+k+365*j+r)/1460+365 := by
    rcases Nat.lt_or_ge (24*c+k+365*j+r) 1460 with hlt | hge
    · have hzero : (24*c+k+365*j+r)/1460 = 0 := by omega
      omega
    · have hone : (24*c+k+365*j+r)/1460 = 1 := by omega
      omega
  clear hj3 hr'
  rw [yearOfEra,hcentury,hfour]
  generalize (36524*c+1461*k+365*j+r)/146096 = q
  generalize (24*c+k+365*j+r)/1460 = t at hday ⊢
  clear hcentury hfour
  have hdays : 36524*c+1461*k+365*j+r-(25*c+k+t)+(c+q)-q = 365*(100*c+4*k+j)+(r-t) := by omega
  rw [hdays]
  omega

theorem eraYearStart_add_day (x : EraDay) : eraYearStart (yearOfEra x.doe)+x.day = x.doe := by
  have hyear := x.yearOfEra_doe
  obtain ⟨c,k,j,r,hc,hk,hj,hr,hj3,hr'⟩ := x
  have hfour : (100*c+4*k+j)/4 = 25*c+k := by omega
  have hcentury : (100*c+4*k+j)/100 = c := by omega
  rw [hyear,eraYearStart,hfour,hcentury]
  simp only [doe]
  omega

theorem yearOfEra_lt (x : EraDay) : yearOfEra x.doe < 400 := by
  have hcentury := x.century_le
  have hfour := x.four_le
  have hyear := x.year_le
  rw [yearOfEra_doe]
  omega

/-- The day lies in its year: a day 365 belongs to a year that ends with a leap February. -/
theorem lt_yearStart (x : EraDay) (era : ℤ) :
    yearStart (yearOfEra x.doe+400*era)+x.day < yearStart (yearOfEra x.doe+400*era+1) := by
  rw [yearStart_add_one,x.yearOfEra_doe]
  obtain ⟨c,k,j,r,hc,hk,hj,hr,hj3,hr'⟩ := x
  simp only
  split_ifs with hleap
  · omega
  · have hlt : r < 365 := by
      by_contra hge
      refine hleap ⟨?_,?_⟩ <;> push_cast <;> omega
    omega

end EraDay

/-- An era has 146097 days. -/
theorem yearStart_era (yoe : ℕ) (h : yoe < 400) (era : ℤ) :
    yearStart (yoe+400*era) = eraYearStart yoe+146097*era := by
  have hfour : (yoe+400*era)/4 = (yoe/4 : ℕ)+100*era := by omega
  have hcentury : (yoe+400*era)/100 = (yoe/100 : ℕ)+4*era := by omega
  have hera : (yoe+400*era)/400 = era := by omega
  have hle : yoe/100 ≤ 365*yoe+yoe/4 := by omega
  rw [yearStart,eraYearStart,hfour,hcentury,hera,Nat.cast_sub hle]
  push_cast
  ring

/-! ### The 64-bit arithmetic -/

theorem toInt_add_exact {a b : Int64} (hlo : -2^63 ≤ a.toInt+b.toInt) (hhi : a.toInt+b.toInt < 2^63) :
    (a+b).toInt = a.toInt+b.toInt := by
  rw [Int64.toInt_add]
  exact Int.bmod_eq_of_le_mul_two (by omega) (by omega)

theorem toInt_sub_exact {a b : Int64} (hlo : -2^63 ≤ a.toInt-b.toInt) (hhi : a.toInt-b.toInt < 2^63) :
    (a-b).toInt = a.toInt-b.toInt := by
  rw [Int64.toInt_sub]
  exact Int.bmod_eq_of_le_mul_two (by omega) (by omega)

theorem toInt_mul_exact {a b : Int64} (hlo : -2^63 ≤ a.toInt*b.toInt) (hhi : a.toInt*b.toInt < 2^63) :
    (a*b).toInt = a.toInt*b.toInt := by
  rw [Int64.toInt_mul]
  exact Int.bmod_eq_of_le_mul_two (by omega) (by omega)

theorem toInt_toInt64_exact {a : UInt64} (h : a.toNat < 2^63) : a.toInt64.toInt = a.toNat := by
  have hbits : 2*a.toBitVec.toNat < 2^64 := by
    rw [UInt64.toNat_toBitVec]
    omega
  rw [← Int64.toInt_toBitVec,UInt64.toBitVec_toInt64,BitVec.toInt_eq_toNat_of_lt hbits]
  rfl

theorem tdiv_of_nonpos {a : ℤ} (h : a ≤ 0) (b : ℤ) : a.tdiv b = -(-a/b) := by
  rw [← Int.tdiv_eq_ediv_of_nonneg (by omega),Int.neg_tdiv,neg_neg]

/-- The era is the floor of the division, for negative days too. -/
theorem toInt_era {days : Int64} (h : -2^62 ≤ days.toInt) :
    (if 0 ≤ days then days/146097 else (days-146096)/146097).toInt = days.toInt/146097 := by
  have hera : (146097 : Int64).toInt = 146097 := rfl
  have hlast : (146096 : Int64).toInt = 146096 := rfl
  have hsign : 0 ≤ days ↔ 0 ≤ days.toInt := Int64.le_iff_toInt_le
  split_ifs with hdays
  · rw [Int64.toInt_div_of_ne_right _ _ (by decide),hera,Int.tdiv_eq_ediv_of_nonneg (hsign.mp hdays)]
  · have hneg : days.toInt < 0 := by rwa [hsign,not_le] at hdays
    rw [Int64.toInt_div_of_ne_right _ _ (by decide),hera,
      toInt_sub_exact (by rw [hlast]; omega) (by rw [hlast]; omega),hlast,tdiv_of_nonpos (by omega)]
    omega

theorem toNat_doe {n : Int64} (hlo : -2^62 ≤ n.toInt) (hhi : n.toInt < 2^62) {era : Int64}
    (hera : era.toInt = n.toInt/146097) : ((n-era*146097).toUInt64.toNat : ℤ) = n.toInt%146097 := by
  have hlit : (146097 : Int64).toInt = 146097 := rfl
  have hmul : (era*146097).toInt = n.toInt/146097*146097 := by
    rw [toInt_mul_exact (by rw [hlit,hera]; omega) (by rw [hlit,hera]; omega),hlit,hera]
  have hsub : (n-era*146097).toInt = n.toInt%146097 := by
    rw [toInt_sub_exact (by rw [hmul]; omega) (by rw [hmul]; omega),hmul]
    omega
  have hnonneg : 0 ≤ n-era*146097 := by
    have hzero : (0 : Int64).toInt = 0 := rfl
    rw [Int64.le_iff_toInt_le,hsub,hzero]
    omega
  rw [Int64.toNat_toUInt64_of_le hnonneg,← Int64.toInt_eq_toNatClampNeg hnonneg,hsub]

/-- `a-b` of unsigned numbers in a build that checks it. -/
def checkedSub (a b : UInt64) : Option UInt64 := if b ≤ a then some (a-b) else none

theorem checkedSub_of_le {a b : UInt64} (h : b.toNat ≤ a.toNat) : checkedSub a b = some (a-b) :=
  if_pos (UInt64.le_iff_toNat_le.mpr h)

theorem toNat_sub_exact {a b : UInt64} (h : b.toNat ≤ a.toNat) : (a-b).toNat = a.toNat-b.toNat :=
  UInt64.toNat_sub_of_le _ _ (UInt64.le_iff_toNat_le.mpr h)

section Stages
variable {doe yoe doy mp : UInt64}

theorem toNat_yoe (h : doe.toNat < 146097) :
    (doe/1460).toNat ≤ doe.toNat ∧ (doe/146096).toNat ≤ (doe-doe/1460+doe/36524).toNat ∧
    ((doe-doe/1460+doe/36524-doe/146096)/365).toNat = yearOfEra doe.toNat := by
  have hfour : (doe/1460).toNat = doe.toNat/1460 := UInt64.toNat_div _ _
  have hcentury : (doe/36524).toNat = doe.toNat/36524 := UInt64.toNat_div _ _
  have hera : (doe/146096).toNat = doe.toNat/146096 := UInt64.toNat_div _ _
  have hle : (doe/1460).toNat ≤ doe.toNat := by rw [hfour]; omega
  have hsum : (doe-doe/1460+doe/36524).toNat = doe.toNat-doe.toNat/1460+doe.toNat/36524 := by
    rw [UInt64.toNat_add,toNat_sub_exact hle,hfour,hcentury]
    omega
  have hle' : (doe/146096).toNat ≤ (doe-doe/1460+doe/36524).toNat := by
    rw [hsum,hera]
    omega
  refine ⟨hle,hle',?_⟩
  rw [UInt64.toNat_div,toNat_sub_exact hle',hsum,hera]
  rfl

theorem toNat_eraYearStart (h : yoe.toNat < 400) :
    (yoe/100).toNat ≤ (365*yoe+yoe/4).toNat ∧
    (365*yoe+yoe/4-yoe/100).toNat = eraYearStart yoe.toNat := by
  have hfour : (yoe/4).toNat = yoe.toNat/4 := UInt64.toNat_div _ _
  have hcentury : (yoe/100).toNat = yoe.toNat/100 := UInt64.toNat_div _ _
  have hdays : (365*yoe).toNat = 365*yoe.toNat := by
    have hlit : (365 : UInt64).toNat = 365 := rfl
    rw [UInt64.toNat_mul,hlit]
    omega
  have hsum : (365*yoe+yoe/4).toNat = 365*yoe.toNat+yoe.toNat/4 := by
    rw [UInt64.toNat_add,hdays,hfour]
    omega
  have hle : (yoe/100).toNat ≤ (365*yoe+yoe/4).toNat := by
    rw [hsum,hcentury]
    omega
  exact ⟨hle,by rw [toNat_sub_exact hle,hsum,hcentury]; rfl⟩

theorem toNat_doy {x : EraDay} (hdoe : doe.toNat = x.doe) (hyoe : yoe.toNat = yearOfEra x.doe) :
    (365*yoe+yoe/4-yoe/100).toNat ≤ doe.toNat ∧ (doe-(365*yoe+yoe/4-yoe/100)).toNat = x.day := by
  have hstart := (toNat_eraYearStart (hyoe ▸ x.yearOfEra_lt)).2
  have hday := x.eraYearStart_add_day
  rw [hyoe] at hstart
  have hle : (365*yoe+yoe/4-yoe/100).toNat ≤ doe.toNat := by omega
  refine ⟨hle,?_⟩
  rw [toNat_sub_exact hle,hstart]
  omega

theorem toNat_mp (h : doy.toNat < 366) : ((5*doy+2)/153).toNat = monthAt doy.toNat := by
  have hfive : (5 : UInt64).toNat = 5 := rfl
  have htwo : (2 : UInt64).toNat = 2 := rfl
  have hlit : (153 : UInt64).toNat = 153 := rfl
  rw [UInt64.toNat_div,UInt64.toNat_add,UInt64.toNat_mul,hfive,htwo,hlit,monthAt]
  omega

theorem toNat_day (hdoy : doy.toNat < 366) (hmp : mp.toNat = monthAt doy.toNat) :
    ((153*mp+2)/5).toNat ≤ doy.toNat ∧
    (doy-(153*mp+2)/5+1).toNat = doy.toNat-monthStart (monthAt doy.toNat)+1 := by
  have hfive : (5 : UInt64).toNat = 5 := rfl
  have htwo : (2 : UInt64).toNat = 2 := rfl
  have hlit : (153 : UInt64).toNat = 153 := rfl
  have hone : (1 : UInt64).toNat = 1 := rfl
  have hmp_lt : mp.toNat < 12 := by
    rw [hmp,monthAt]
    omega
  have hstart : ((153*mp+2)/5).toNat = monthStart (monthAt doy.toNat) := by
    rw [UInt64.toNat_div,UInt64.toNat_add,UInt64.toNat_mul,hfive,htwo,hlit,← hmp,monthStart]
    omega
  have hle : ((153*mp+2)/5).toNat ≤ doy.toNat := by
    rw [hstart]
    exact monthStart_le _
  refine ⟨hle,?_⟩
  rw [UInt64.toNat_add,toNat_sub_exact hle,hstart,hone]
  omega

theorem toNat_monthOf (h : mp.toNat < 12) : (if mp < 10 then mp+3 else mp-9).toNat = monthOf mp.toNat := by
  have hten : mp < 10 ↔ mp.toNat < 10 := UInt64.lt_iff_toNat_lt
  have hthree : (3 : UInt64).toNat = 3 := rfl
  have hnine : (9 : UInt64).toNat = 9 := rfl
  rw [monthOf]
  split_ifs with h₁ h₂ h₂
  · rw [UInt64.toNat_add,hthree]
    omega
  · exact absurd (hten.mp h₁) h₂
  · exact absurd (hten.mpr h₂) h₁
  · rw [toNat_sub_exact (by rw [hnine]; omega),hnine]

theorem checked_month (mp : UInt64) : (if mp < 10 then some (mp+3) else checkedSub mp 9) =
    some (if mp < 10 then mp+3 else mp-9) := by
  have hnine : (9 : UInt64).toNat = 9 := rfl
  have hten : mp < 10 ↔ mp.toNat < 10 := UInt64.lt_iff_toNat_lt
  split_ifs with h
  · rfl
  · rw [hten] at h
    exact checkedSub_of_le (by rw [hnine]; omega)

theorem toInt_y {era : Int64} (hyoe : yoe.toNat < 400) (hlo : -2^37 ≤ era.toInt) (hhi : era.toInt < 2^37) :
    (yoe.toInt64+era*400).toInt = yoe.toNat+400*era.toInt := by
  have hlit : (400 : Int64).toInt = 400 := rfl
  have hmul : (era*400).toInt = era.toInt*400 := by
    rw [toInt_mul_exact (by rw [hlit]; omega) (by rw [hlit]; omega),hlit]
  have hyoe64 : yoe.toInt64.toInt = yoe.toNat := toInt_toInt64_exact (by omega)
  rw [toInt_add_exact (by rw [hmul,hyoe64]; omega) (by rw [hmul,hyoe64]; omega),hmul,hyoe64,mul_comm]

theorem toInt_yFull {y : Int64} {m : UInt64} (hlo : -2^62 ≤ y.toInt) (hhi : y.toInt < 2^62) :
    (if m ≤ 2 then y+1 else y).toInt = if m.toNat ≤ 2 then y.toInt+1 else y.toInt := by
  have htwo : m ≤ 2 ↔ m.toNat ≤ 2 := UInt64.le_iff_toNat_le
  have hone : (1 : Int64).toInt = 1 := rfl
  split_ifs with h₁ h₂ h₂
  · rw [toInt_add_exact (by rw [hone]; omega) (by rw [hone]; omega),hone]
  · exact absurd (htwo.mp h₁) h₂
  · exact absurd (htwo.mpr h₂) h₁
  · rfl

end Stages

/-! ### The date of a day number -/

/-- `i32::try_from`. -/
def tryFrom (n : Int64) : Option ℤ := if -2^31 ≤ n.toInt ∧ n.toInt < 2^31 then some n.toInt else none

/-- `civil_date` with every unsigned subtraction checked, and without the fallback for the year. -/
def civilDateChecked (days : Int64) : Option (Int × UInt32 × UInt32) := do
  let days := days + 719468
  let era := if 0 ≤ days then days/146097 else (days-146096)/146097
  let doe := (days-era*146097).toUInt64
  let yoe := (← checkedSub ((← checkedSub doe (doe/1460))+doe/36524) (doe/146096))/365
  let y := yoe.toInt64+era*400
  let doy ← checkedSub doe (← checkedSub (365*yoe+yoe/4) (yoe/100))
  let mp := (5*doy+2)/153
  let d := (← checkedSub doy ((153*mp+2)/5))+1
  let m ← (if mp < 10 then some (mp+3) else checkedSub mp 9)
  let yFull := if m ≤ 2 then y+1 else y
  let year ← tryFrom yFull
  return (year,m.toUInt32,d.toUInt32)

/-- The numbers are those of a date of the calendar. -/
def Shows (t : Int × UInt32 × UInt32) (a : Date) : Prop :=
  t.1 = a.year ∧ t.2.1.toNat = a.month ∧ t.2.2.toNat = a.day

/-- The date of a day of an era. -/
def EraDay.date (x : EraDay) (era : ℤ) : Date := .ofMarch _ _ (x.lt_yearStart era)

theorem EraDay.after_date (x : EraDay) {era n : ℤ} (h : x.doe+146097*era = n+719468) :
    after n = x.date era := by
  have hnumber : (x.date era).number = n := by
    have hday := x.eraYearStart_add_day
    rw [EraDay.date,Date.number_ofMarch,yearStart_era _ x.yearOfEra_lt]
    omega
  rw [← hnumber,after_number]

theorem civilDate_exact (days : Int64) (hlo : -2^37 ≤ days.toInt) (hhi : days.toInt ≤ 2^37) :
    Shows (civilDate days) (after days.toInt) ∧ civilDateChecked days = some (civilDate days) := by
  obtain ⟨n,hn⟩ : ∃ n, n = days+719468 := ⟨_,rfl⟩
  have hlit : (719468 : Int64).toInt = 719468 := rfl
  have hnInt : n.toInt = days.toInt+719468 := by
    rw [hn,toInt_add_exact (by rw [hlit]; omega) (by rw [hlit]; omega),hlit]
  obtain ⟨era,hera⟩ : ∃ era, era = if 0 ≤ n then n/146097 else (n-146096)/146097 := ⟨_,rfl⟩
  have heraInt : era.toInt = n.toInt/146097 := by rw [hera,toInt_era (by omega)]
  obtain ⟨doe,hdoe⟩ : ∃ doe, doe = (n-era*146097).toUInt64 := ⟨_,rfl⟩
  have hdoeNat : (doe.toNat : ℤ) = n.toInt%146097 := by rw [hdoe,toNat_doe (by omega) (by omega) heraInt]
  obtain ⟨x,hx⟩ := EraDay.exists_doe (show doe.toNat < 146097 by omega)
  have hafter : after days.toInt = x.date era.toInt := x.after_date (by omega)
  have hday_le := x.day_le
  have hmonth_le := Date.monthAt_le (x.lt_yearStart era.toInt)
  have hyear_lt := x.yearOfEra_lt
  -- The values of the variables, in the order of the source.
  obtain ⟨hleFour,hleEra,hyoeNat⟩ := toNat_yoe (show doe.toNat < 146097 by omega)
  obtain ⟨yoe,hyoe⟩ : ∃ yoe, yoe = (doe-doe/1460+doe/36524-doe/146096)/365 := ⟨_,rfl⟩
  rw [← hyoe,← hx] at hyoeNat
  obtain ⟨y,hy⟩ : ∃ y, y = yoe.toInt64+era*400 := ⟨_,rfl⟩
  have hyInt : y.toInt = yearOfEra x.doe+400*era.toInt := by
    rw [hy,toInt_y (by omega) (by omega) (by omega),hyoeNat]
  have hleCentury := (toNat_eraYearStart (show yoe.toNat < 400 by omega)).1
  obtain ⟨hleStart,hdoyNat⟩ := toNat_doy hx.symm hyoeNat
  obtain ⟨doy,hdoy⟩ : ∃ doy, doy = doe-(365*yoe+yoe/4-yoe/100) := ⟨_,rfl⟩
  rw [← hdoy] at hdoyNat
  obtain ⟨mp,hmp⟩ : ∃ mp, mp = (5*doy+2)/153 := ⟨_,rfl⟩
  have hmpNat : mp.toNat = monthAt doy.toNat := by rw [hmp,toNat_mp (by omega)]
  obtain ⟨hleMonth,hdNat⟩ := toNat_day (by omega) hmpNat
  obtain ⟨m,hm⟩ : ∃ m, m = if mp < 10 then mp+3 else mp-9 := ⟨_,rfl⟩
  rw [hdoyNat] at hmpNat hdNat
  have hmNat : m.toNat = monthOf (monthAt x.day) := by rw [hm,toNat_monthOf (by omega),hmpNat]
  obtain ⟨yFull,hyFull⟩ : ∃ yFull, yFull = if m ≤ 2 then y+1 else y := ⟨_,rfl⟩
  have hyFullInt : yFull.toInt = (x.date era.toInt).year := by
    rw [hyFull,toInt_yFull (by omega) (by omega),hmNat,hyInt]
    rfl
  have hfits : -2^31 ≤ yFull.toInt ∧ yFull.toInt < 2^31 := by
    rw [hyFull,toInt_yFull (by omega) (by omega)]
    split_ifs <;> omega
  have hcivil : civilDate days = (yFull.toInt,m.toUInt32,(doy-(153*mp+2)/5+1).toUInt32) := by
    rw [← if_pos (c := -2^31 ≤ yFull.toInt ∧ yFull.toInt < 2^31) (t := yFull.toInt) (e := 0) hfits]
    subst hyFull hy hm hmp hdoy hyoe hdoe hera hn
    rfl
  refine ⟨?_,?_⟩
  · rw [hcivil,hafter]
    refine ⟨hyFullInt,?_,?_⟩
    · have hm_lt := monthOf_mem hmonth_le
      rw [UInt64.toNat_toUInt32,hmNat,Nat.mod_eq_of_lt (by omega)]
      rfl
    · rw [UInt64.toNat_toUInt32,hdNat,Nat.mod_eq_of_lt (by omega)]
      rfl
  · have hmChecked : (if mp < 10 then some (mp+3) else checkedSub mp 9) = some m := by rw [checked_month,hm]
    have hyearChecked : tryFrom yFull = some yFull.toInt := if_pos hfits
    rw [hcivil,civilDateChecked]
    simp only [← hn,← hera,← hdoe,checkedSub_of_le hleFour,checkedSub_of_le hleEra,Option.bind_eq_bind,
      Option.bind_some,← hyoe,← hy,checkedSub_of_le hleCentury,checkedSub_of_le hleStart,← hdoy,← hmp,
      checkedSub_of_le hleMonth,hmChecked,← hyFull,hyearChecked]
    rfl

/-- On every day number that a timestamp can have, the closed form is the proleptic Gregorian calendar:
1970-01-01 is day 0, the next number is the next date, and no check of the arithmetic fails. -/
theorem civil_date_gregorian :
    civilDate 0 = (1970,1,1) ∧
    ∀ d : Int64, |d.toInt| ≤ Int64.maxValue.toInt/86400000+1 →
      (∃ a : Date, Shows (civilDate d) a ∧ Shows (civilDate (d+1)) a.next) ∧
      civilDateChecked d = some (civilDate d) := by
  refine ⟨by decide,fun d hd => ?_⟩
  have hmax : Int64.maxValue.toInt = 2^63-1 := rfl
  have hone : (1 : Int64).toInt = 1 := rfl
  rw [hmax,abs_le] at hd
  have hsucc : (d+1).toInt = d.toInt+1 := by
    rw [toInt_add_exact (by rw [hone]; omega) (by rw [hone]; omega),hone]
  obtain ⟨hdate,hchecked⟩ := civilDate_exact d (by omega) (by omega)
  have hnext := (civilDate_exact (d+1) (by omega) (by omega)).1
  rw [hsucc,after_add_one] at hnext
  exact ⟨⟨_,hdate,hnext⟩,hchecked⟩

end Percept
