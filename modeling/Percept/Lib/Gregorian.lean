import Mathlib

/-! The proleptic Gregorian calendar: dates that carry a valid month and day, the next and the
previous date, the date a number of days after 1970-01-01, and the number of a date. -/
namespace Gregorian

/-- The 4/100/400 rule. -/
def IsLeap (year : ℤ) : Prop := 4 ∣ year ∧ (¬ 100 ∣ year ∨ 400 ∣ year)

instance (year : ℤ) : Decidable (IsLeap year) := inferInstanceAs (Decidable (_ ∧ _))

def monthLength (year : ℤ) (month : ℕ) : ℕ :=
  if month = 2 then if IsLeap year then 29 else 28
  else if month = 4 ∨ month = 6 ∨ month = 9 ∨ month = 11 then 30 else 31

theorem monthLength_pos (year : ℤ) (month : ℕ) : 1 ≤ monthLength year month := by
  unfold monthLength
  split_ifs <;> omega

theorem monthLength_le (year : ℤ) (month : ℕ) : monthLength year month ≤ 31 := by
  unfold monthLength
  split_ifs <;> omega

@[ext] structure Date where
  year : ℤ
  month : ℕ
  day : ℕ
  month_mem : 1 ≤ month ∧ month ≤ 12
  day_mem : 1 ≤ day ∧ day ≤ monthLength year month

namespace Date

theorem day_le (a : Date) : a.day ≤ 31 := a.day_mem.2.trans (monthLength_le _ _)

def epoch : Date := ⟨1970,1,1,by decide,by decide⟩

def next (a : Date) : Date :=
  if hday : a.day < monthLength a.year a.month then
    ⟨a.year,a.month,a.day+1,a.month_mem,Nat.le_add_left 1 _,hday⟩
  else if hmonth : a.month < 12 then
    ⟨a.year,a.month+1,1,⟨Nat.le_add_left 1 _,hmonth⟩,le_rfl,monthLength_pos _ _⟩
  else ⟨a.year+1,1,1,by decide,le_rfl,monthLength_pos _ _⟩

def prev (a : Date) : Date :=
  if hday : 1 < a.day then
    ⟨a.year,a.month,a.day-1,a.month_mem,Nat.le_sub_one_of_lt hday,(Nat.sub_le _ _).trans a.day_mem.2⟩
  else if hmonth : 1 < a.month then
    ⟨a.year,a.month-1,monthLength a.year (a.month-1),
      ⟨Nat.le_sub_one_of_lt hmonth,(Nat.sub_le _ _).trans a.month_mem.2⟩,monthLength_pos _ _,le_rfl⟩
  else ⟨a.year-1,12,31,by decide,by decide,le_rfl⟩

theorem monthLength_december (year : ℤ) : monthLength year 12 = 31 := rfl

theorem prev_next (a : Date) : a.next.prev = a := by
  obtain ⟨hm,hm'⟩ := a.month_mem
  obtain ⟨hd,hd'⟩ := a.day_mem
  unfold next
  split_ifs with hday hmonth
  · rw [prev,dif_pos (Nat.lt_add_of_pos_left hd)]
    rfl
  · have hlast : a.day = monthLength a.year a.month := by omega
    rw [prev,dif_neg (lt_irrefl 1),dif_pos (Nat.lt_add_of_pos_left hm)]
    exact Date.ext rfl rfl hlast.symm
  · have hdec : a.month = 12 := by omega
    have hlast : a.day = 31 := by rw [hdec,monthLength_december] at hday hd'; omega
    rw [prev,dif_neg (lt_irrefl 1),dif_neg (lt_irrefl 1)]
    exact Date.ext (Int.add_sub_cancel _ _) hdec.symm hlast.symm

theorem next_prev (a : Date) : a.prev.next = a := by
  obtain ⟨hm,hm'⟩ := a.month_mem
  obtain ⟨hd,hd'⟩ := a.day_mem
  unfold prev
  split_ifs with hday hmonth
  · rw [next,dif_pos (by simp only; omega)]
    exact Date.ext rfl rfl (Nat.sub_add_cancel hd)
  · have hfirst : a.day = 1 := by omega
    rw [next,dif_neg (lt_irrefl _),dif_pos (by simp only; omega)]
    exact Date.ext rfl (Nat.sub_add_cancel hm) hfirst.symm
  · have hjan : a.month = 1 := by omega
    have hfirst : a.day = 1 := by omega
    rw [next,dif_neg (by simp only [monthLength_december]; omega),dif_neg (lt_irrefl 12)]
    exact Date.ext (Int.sub_add_cancel _ _) hjan.symm hfirst.symm

/-- The successor, with the predecessor as its inverse. -/
def succ : Equiv.Perm Date := ⟨next,prev,prev_next,next_prev⟩

end Date

/-- The date `n` days after 1970-01-01, before it for a negative `n`. -/
def after (n : ℤ) : Date := (Date.succ^n) Date.epoch

@[simp] theorem after_zero : after 0 = Date.epoch := rfl

theorem after_add_one (n : ℤ) : after (n+1) = (after n).next := by
  rw [after,add_comm,zpow_add,zpow_one]
  rfl

/-! ### The number of a date -/

/-- Days from 0000-03-01 to the first of March of a year. -/
def yearStart (y : ℤ) : ℤ := 365*y+y/4-y/100+y/400

theorem yearStart_add_one (y : ℤ) :
    yearStart (y+1) = yearStart y+if IsLeap (y+1) then 366 else 365 := by
  unfold yearStart IsLeap
  split_ifs <;> omega

theorem yearStart_mono : Monotone yearStart := monotone_int_of_le_succ fun y => by
  rw [yearStart_add_one]
  split_ifs <;> omega

/-- Days from the first of March to the first of a month, `0` being March. -/
def monthStart (m : ℕ) : ℕ := (153*m+2)/5

theorem monthStart_mono : Monotone monthStart := fun m n h => by
  unfold monthStart
  omega

/-- The month of a day of the year that starts in March. -/
def monthAt (doy : ℕ) : ℕ := (5*doy+2)/153

theorem monthStart_le (doy : ℕ) : monthStart (monthAt doy) ≤ doy := by
  unfold monthStart monthAt
  omega

theorem lt_monthStart (doy : ℕ) : doy < monthStart (monthAt doy+1) := by
  unfold monthStart monthAt
  omega

theorem monthAt_eq {m doy : ℕ} (hle : monthStart m ≤ doy) (hlt : doy < monthStart (m+1)) :
    monthAt doy = m := by
  unfold monthStart at hle hlt
  unfold monthAt
  omega

/-- The months counted from March, and back. -/
def marchMonth (month : ℕ) : ℕ := if month ≤ 2 then month+9 else month-3

def monthOf (m : ℕ) : ℕ := if m < 10 then m+3 else m-9

theorem monthOf_mem {m : ℕ} (h : m ≤ 11) : 1 ≤ monthOf m ∧ monthOf m ≤ 12 := by
  unfold monthOf
  split_ifs <;> omega

theorem marchMonth_monthOf {m : ℕ} (h : m ≤ 11) : marchMonth (monthOf m) = m := by
  unfold marchMonth monthOf
  split_ifs <;> omega

theorem monthOf_marchMonth {month : ℕ} (h : 1 ≤ month) (h' : month ≤ 12) :
    monthOf (marchMonth month) = month := by
  unfold marchMonth monthOf
  split_ifs <;> omega

/-- Every month but February has its fixed length, and the starts of the months follow it. -/
theorem monthStart_add_one (year : ℤ) {month : ℕ} (hm : 1 ≤ month) (hm' : month ≤ 12) (hfeb : month ≠ 2) :
    monthStart (marchMonth month+1) = monthStart (marchMonth month)+monthLength year month := by
  interval_cases month <;> first | rfl | exact absurd rfl hfeb

/-- The year that started in March ends with February. -/
theorem yearStart_eq_february (year : ℤ) :
    yearStart year = yearStart (year-1)+monthStart 11+monthLength year 2 := by
  have hyear := yearStart_add_one (year-1)
  rw [Int.sub_add_cancel] at hyear
  rw [hyear,monthLength,if_pos rfl,monthStart]
  split_ifs <;> omega

namespace Date

/-- The year that started in March. -/
def marchYear (a : Date) : ℤ := if a.month ≤ 2 then a.year-1 else a.year

def number (a : Date) : ℤ := yearStart a.marchYear+monthStart (marchMonth a.month)+a.day-1-719468

theorem number_epoch : epoch.number = 0 := by decide

theorem number_next (a : Date) : a.next.number = a.number+1 := by
  obtain ⟨year,month,day,⟨hm,hm'⟩,hd,hd'⟩ := a
  unfold next
  simp only at hm hm' hd hd' ⊢
  split_ifs with hday hmonth
  · simp only [number,marchYear]
    omega
  · by_cases hfeb : month = 2
    · subst hfeb
      have hyear := yearStart_eq_february year
      have hmarch : monthStart (marchMonth (2+1)) = 0 := rfl
      have hlast : monthStart (marchMonth 2) = monthStart 11 := rfl
      simp only [number,marchYear,hmarch,hlast]
      rw [if_neg (by omega),if_pos le_rfl]
      omega
    · have hstart := monthStart_add_one year hm hm' hfeb
      have hmarch : marchMonth (month+1) = marchMonth month+1 := by
        unfold marchMonth
        split_ifs <;> omega
      simp only [number,marchYear,hmarch]
      split_ifs <;> omega
  · have hdec : month = 12 := by omega
    subst hdec
    have hstart := monthStart_add_one year hm hm' (by omega)
    have hjan : marchMonth 1 = marchMonth 12+1 := rfl
    simp only [number,marchYear,hjan]
    rw [if_pos (by omega),if_neg (by omega),Int.add_sub_cancel]
    omega

/-- The day of the year that started in March. -/
def marchDay (a : Date) : ℕ := monthStart (marchMonth a.month)+(a.day-1)

theorem number_eq (a : Date) : a.number = yearStart a.marchYear+a.marchDay-719468 := by
  have hd := a.day_mem.1
  unfold number marchDay
  omega

/-- A date lies before the next first of March. -/
theorem marchDay_lt (a : Date) : yearStart a.marchYear+a.marchDay < yearStart (a.marchYear+1) := by
  obtain ⟨year,month,day,⟨hm,hm'⟩,hd,hd'⟩ := a
  by_cases hfeb : month = 2
  · subst hfeb
    have hyear := yearStart_eq_february year
    have hlast : monthStart (marchMonth 2) = monthStart 11 := rfl
    simp only [marchYear,marchDay,hlast,le_refl,if_true,Int.sub_add_cancel]
    omega
  · have hstart := monthStart_add_one year hm hm' hfeb
    have hend : monthStart (marchMonth month+1) ≤ monthStart 11 := monthStart_mono (by
      unfold marchMonth
      split_ifs <;> omega)
    have hlast : monthStart 11 = 337 := rfl
    simp only [marchDay,yearStart_add_one]
    split_ifs <;> omega

/-- The year is determined by the number of a day in it. -/
theorem marchYear_unique {y z : ℤ} {i j : ℕ} (h : yearStart y+i = yearStart z+j)
    (hi : yearStart y+i < yearStart (y+1)) (hj : yearStart z+j < yearStart (z+1)) : y = z := by
  rcases lt_trichotomy y z with hlt | heq | hlt
  · have := yearStart_mono (Int.add_one_le_of_lt hlt)
    omega
  · exact heq
  · have := yearStart_mono (Int.add_one_le_of_lt hlt)
    omega

theorem marchDay_lt_monthStart (a : Date) : a.marchDay < monthStart (marchMonth a.month+1) := by
  obtain ⟨year,month,day,⟨hm,hm'⟩,hd,hd'⟩ := a
  by_cases hfeb : month = 2
  · subst hfeb
    have hlength : monthLength year 2 ≤ 29 := by
      rw [monthLength,if_pos rfl]
      split_ifs <;> omega
    have hstart : monthStart (marchMonth 2) = 337 ∧ monthStart (marchMonth 2+1) = 367 := ⟨rfl,rfl⟩
    simp only [marchDay]
    omega
  · have hstart := monthStart_add_one year hm hm' hfeb
    simp only [marchDay]
    omega

/-- The month is determined by the day of the year. -/
theorem marchMonth_eq (a : Date) : marchMonth a.month = monthAt a.marchDay :=
  (monthAt_eq (Nat.le_add_right _ _) a.marchDay_lt_monthStart).symm

theorem number_injective : Function.Injective number := fun a b h => by
  rw [number_eq,number_eq] at h
  have hday : yearStart a.marchYear+a.marchDay = yearStart b.marchYear+b.marchDay := by omega
  have hyear := marchYear_unique hday a.marchDay_lt b.marchDay_lt
  rw [hyear] at hday
  have hdays : a.marchDay = b.marchDay := by omega
  have hmarch : marchMonth a.month = marchMonth b.month := by
    rw [marchMonth_eq,marchMonth_eq,hdays]
  obtain ⟨ha,ha'⟩ := a.month_mem
  obtain ⟨hb,hb'⟩ := b.month_mem
  have hmonth : a.month = b.month := by
    rw [← monthOf_marchMonth ha ha',hmarch,monthOf_marchMonth hb hb']
  refine Date.ext ?_ hmonth ?_
  · unfold marchYear at hyear
    rw [hmonth] at hyear
    split_ifs at hyear <;> omega
  · have hda := a.day_mem.1
    have hdb := b.day_mem.1
    unfold marchDay at hdays
    rw [hmarch] at hdays
    omega

theorem monthAt_le {y : ℤ} {doy : ℕ} (h : yearStart y+doy < yearStart (y+1)) : monthAt doy ≤ 11 := by
  have hlength : yearStart (y+1) ≤ yearStart y+366 := by
    rw [yearStart_add_one]
    split_ifs <;> omega
  unfold monthAt
  omega

/-- The date at a day of the year that starts in March. -/
def ofMarch (y : ℤ) (doy : ℕ) (h : yearStart y+doy < yearStart (y+1)) : Date where
  year := if monthOf (monthAt doy) ≤ 2 then y+1 else y
  month := monthOf (monthAt doy)
  day := doy-monthStart (monthAt doy)+1
  month_mem := monthOf_mem (monthAt_le h)
  day_mem := by
    refine ⟨Nat.le_add_left 1 _,?_⟩
    obtain ⟨hm,hm'⟩ := monthOf_mem (monthAt_le h)
    by_cases hfeb : monthOf (monthAt doy) = 2
    · have hyear := yearStart_eq_february (y+1)
      have hlast : monthAt doy = 11 := by rw [← marchMonth_monthOf (monthAt_le h),hfeb]; rfl
      have hle := monthStart_le doy
      rw [hfeb,if_pos le_rfl]
      rw [Int.add_sub_cancel] at hyear
      rw [hlast] at hle ⊢
      omega
    · have hstart := monthStart_add_one (if monthOf (monthAt doy) ≤ 2 then y+1 else y) hm hm' hfeb
      rw [marchMonth_monthOf (monthAt_le h)] at hstart
      have hlt := lt_monthStart doy
      have hle := monthStart_le doy
      rw [hstart] at hlt
      omega

theorem number_ofMarch (y : ℤ) (doy : ℕ) (h : yearStart y+doy < yearStart (y+1)) :
    (ofMarch y doy h).number = yearStart y+doy-719468 := by
  have hle := monthStart_le doy
  have hyear : (ofMarch y doy h).marchYear = y := by
    simp only [marchYear,ofMarch]
    split_ifs <;> omega
  have hmonth : marchMonth (ofMarch y doy h).month = monthAt doy := marchMonth_monthOf (monthAt_le h)
  have hday : (ofMarch y doy h).day = doy-monthStart (monthAt doy)+1 := rfl
  rw [number,hyear,hmonth,hday]
  omega

end Date

@[simp] theorem number_after (n : ℤ) : (after n).number = n := by
  induction n using Int.induction_on with
  | zero => exact Date.number_epoch
  | succ n ih => rw [after_add_one,Date.number_next,ih]
  | pred n ih =>
    have h := Date.number_next (after (-n-1))
    rw [← after_add_one,Int.sub_add_cancel,ih] at h
    omega

theorem after_injective : Function.Injective after :=
  Function.LeftInverse.injective number_after

theorem after_number (a : Date) : after a.number = a :=
  Date.number_injective (number_after a.number)

end Gregorian
