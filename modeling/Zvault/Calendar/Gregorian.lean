import Mathlib.Logic.Function.Iterate
import Mathlib.Order.Monotone.Basic
import Mathlib.Tactic.IntervalCases

/-!
# The Gregorian calendar

A calendar that goes from day to day, and Howard Hinnant's arithmetic that finds the
date of a day at once. Years begin in March for the arithmetic, so that a leap day is
the last one, and 400 years make an era.
-/

namespace Calendar

/-- A leap year of the proleptic Gregorian calendar. -/
def isLeap (year : ℕ) : Bool := year % 4 = 0 ∧ (year % 100 ≠ 0 ∨ year % 400 = 0)

theorem isLeap_iff {year : ℕ} :
    isLeap year = true ↔ year % 4 = 0 ∧ (year % 100 ≠ 0 ∨ year % 400 = 0) :=
  decide_eq_true_iff

def daysInMonth (year month : ℕ) : ℕ :=
  if month = 2 then if isLeap year then 29 else 28
  else if month = 4 ∨ month = 6 ∨ month = 9 ∨ month = 11 then 30
  else 31

theorem daysInMonth_range (year month : ℕ) :
    28 ≤ daysInMonth year month ∧ daysInMonth year month ≤ 31 := by
  unfold daysInMonth
  split_ifs <;> omega

structure Date where
  year : ℕ
  month : ℕ
  day : ℕ
  month_range : 1 ≤ month ∧ month ≤ 12
  day_range : 1 ≤ day ∧ day ≤ daysInMonth year month
  deriving DecidableEq

namespace Date

theorem first_range (year month : ℕ) : 1 ≤ 1 ∧ 1 ≤ daysInMonth year month := by
  have := daysInMonth_range year month
  omega

/-- The day after. -/
def next (d : Date) : Date :=
  if hday : d.day < daysInMonth d.year d.month then
    { d with day := d.day + 1, day_range := ⟨Nat.le_add_left 1 d.day, hday⟩ }
  else if hmonth : d.month < 12 then
    { year := d.year, month := d.month + 1, day := 1
      month_range := ⟨Nat.le_add_left 1 d.month, hmonth⟩
      day_range := first_range _ _ }
  else
    { year := d.year + 1, month := 1, day := 1
      month_range := by decide
      day_range := first_range _ _ }

/-- A day is in the same month as the day before, or the first of a month. -/
theorem next_cases (d : Date) :
    (d.next.year = d.year ∧ d.next.month = d.month ∧ d.next.day = d.day + 1) ∨
      (d.month < 12 ∧ d.day = daysInMonth d.year d.month ∧
        d.next.year = d.year ∧ d.next.month = d.month + 1 ∧ d.next.day = 1) ∨
      (d.month = 12 ∧ d.day = 31 ∧ d.next.year = d.year + 1 ∧ d.next.month = 1 ∧ d.next.day = 1) := by
  have hmonth := d.month_range
  have hday := d.day_range
  unfold next
  split_ifs with hinside hlater
  · exact .inl ⟨rfl, rfl, rfl⟩
  · exact .inr (.inl ⟨hlater, by omega, rfl, rfl, rfl⟩)
  · have hlast : d.month = 12 := by omega
    have hlength : daysInMonth d.year 12 = 31 := rfl
    rw [hlast] at hday hinside
    exact .inr (.inr ⟨hlast, by omega, rfl, rfl, rfl⟩)

/-- Year, month and day as the digits of one number. -/
def number (d : Date) : ℕ := 10000 * d.year + 100 * d.month + d.day

theorem number_lt_next (d : Date) : d.number < d.next.number := by
  have hdays := daysInMonth_range d.year d.month
  have hday := d.day_range
  unfold number
  rcases d.next_cases with h | h | h <;> omega

theorem year_le_next (d : Date) : d.year ≤ d.next.year := by
  rcases d.next_cases with h | h | h <;> omega

end Date

/-- The first day. -/
def epoch : Date := ⟨1970, 1, 1, by decide, by decide⟩

/-- The date so many days after the first one. -/
def date (n : ℕ) : Date := Date.next^[n] epoch

theorem date_succ (n : ℕ) : date (n + 1) = (date n).next := Function.iterate_succ_apply' ..

theorem number_strictMono : StrictMono fun n => (date n).number :=
  strictMono_nat_of_lt_succ fun n => date_succ n ▸ (date n).number_lt_next

theorem year_monotone : Monotone fun n => (date n).year :=
  monotone_nat_of_le_succ fun n => date_succ n ▸ (date n).year_le_next

section Arithmetic

/-- The days of the years before a year. -/
def yearDays (year : ℕ) : ℕ := 365 * year + year / 4 - year / 100 + year / 400

theorem yearDays_succ (year : ℕ) :
    yearDays (year + 1) = yearDays year + if isLeap (year + 1) then 366 else 365 := by
  have hfour : (year + 1) / 4 = year / 4 + if (year + 1) % 4 = 0 then 1 else 0 := by
    split_ifs <;> omega
  have hhundred : (year + 1) / 100 = year / 100 + if (year + 1) % 100 = 0 then 1 else 0 := by
    split_ifs <;> omega
  have hera : (year + 1) / 400 = year / 400 + if (year + 1) % 400 = 0 then 1 else 0 := by
    split_ifs <;> omega
  have hle : year / 100 ≤ year / 4 := Nat.div_le_div_left (by decide) (by decide)
  unfold yearDays
  rw [hfour, hhundred, hera]
  generalize year / 4 = q at hle ⊢
  generalize year / 100 = c at hle ⊢
  generalize year / 400 = e
  -- of the years that four divides, only every fourth secular one is a leap year
  simp only [isLeap_iff]
  have hcases : (year + 1) % 4 ≠ 0 ∧ (year + 1) % 100 ≠ 0 ∧ (year + 1) % 400 ≠ 0 ∨
      (year + 1) % 4 = 0 ∧ (year + 1) % 100 ≠ 0 ∧ (year + 1) % 400 ≠ 0 ∨
      (year + 1) % 4 = 0 ∧ (year + 1) % 100 = 0 ∧ (year + 1) % 400 ≠ 0 ∨
      (year + 1) % 4 = 0 ∧ (year + 1) % 100 = 0 ∧ (year + 1) % 400 = 0 := by omega
  clear hfour hhundred hera
  rcases hcases with ⟨h₄, h₁₀₀, h₄₀₀⟩ | ⟨h₄, h₁₀₀, h₄₀₀⟩ | ⟨h₄, h₁₀₀, h₄₀₀⟩ | ⟨h₄, h₁₀₀, h₄₀₀⟩
  · rw [if_neg h₄, if_neg h₁₀₀, if_neg h₄₀₀, if_neg fun h => h₄ h.1]
    omega
  · rw [if_pos h₄, if_neg h₁₀₀, if_neg h₄₀₀, if_pos ⟨h₄, .inl h₁₀₀⟩]
    omega
  · rw [if_pos h₄, if_pos h₁₀₀, if_neg h₄₀₀, if_neg fun h => h.2.elim (· h₁₀₀) h₄₀₀]
    omega
  · rw [if_pos h₄, if_pos h₁₀₀, if_pos h₄₀₀, if_pos ⟨h₄, .inr h₄₀₀⟩]
    omega

/-- The days of a year that begins in March, before a month and a day of it. -/
def dayOfYear (month day : ℕ) : ℕ := (153 * ((month + 9) % 12) + 2) / 5 + (day - 1)

/-- The year that begins in March. -/
def marchYear (year month : ℕ) : ℕ := if month ≤ 2 then year - 1 else year

/-- The days before a date, from the first of March of the year 0. -/
def dayNumber (d : Date) : ℕ := yearDays (marchYear d.year d.month) + dayOfYear d.month d.day

/-- A month is as long as the arithmetic has it. -/
theorem dayOfYear_succ {month : ℕ} (hmonth : 3 ≤ month) (hlast : month < 12) (year : ℕ) :
    dayOfYear (month + 1) 1 = dayOfYear month (daysInMonth year month) + 1 := by
  interval_cases month <;> rfl

theorem dayNumber_next {d : Date} (hyear : 1 ≤ d.year) : dayNumber d.next = dayNumber d + 1 := by
  have hmonth := d.month_range
  have hday := d.day_range
  unfold dayNumber
  rcases d.next_cases with ⟨hy, hm, hd⟩ | ⟨hlater, hlast, hy, hm, hd⟩ | ⟨hdecember, hlast, hy, hm, hd⟩
  · rw [hy, hm, hd]
    unfold dayOfYear
    omega
  · rw [hy, hm, hd, hlast]
    by_cases hmarch : 3 ≤ d.month
    · rw [dayOfYear_succ hmarch hlater d.year, marchYear, marchYear, if_neg (by omega), if_neg (by omega)]
      omega
    · obtain ⟨before, hbefore⟩ := Nat.exists_eq_add_of_le' hyear
      have hstart := yearDays_succ before
      rcases (by omega : d.month = 1 ∨ d.month = 2) with hfirst | hsecond
      · rw [hfirst]
        rfl
      · -- the leap day is the last day of a year that begins in March
        rw [hsecond, hbefore]
        change yearDays (before + 1) + 0 = yearDays before + (337 + (daysInMonth (before + 1) 2 - 1)) + 1
        rw [hstart, daysInMonth, if_pos rfl]
        split_ifs <;> rfl
  · rw [hy, hm, hd, hdecember, hlast]
    rfl

theorem one_le_year_date (n : ℕ) : 1 ≤ (date n).year :=
  (by decide : 1 ≤ (date 0).year).trans (year_monotone (Nat.zero_le n))

theorem dayNumber_date (n : ℕ) : dayNumber (date n) = n + 719468 := by
  induction n with
  | zero => decide
  | succ n ih =>
    have hnext := dayNumber_next (one_le_year_date n)
    rw [date_succ]
    omega

theorem yearDays_era (era year : ℕ) : yearDays (400 * era + year) = 146097 * era + yearDays year := by
  have hfour : (400 * era + year) / 4 = 100 * era + year / 4 := by omega
  have hhundred : (400 * era + year) / 100 = 4 * era + year / 100 := by omega
  have hera : (400 * era + year) / 400 = era + year / 400 := by omega
  have hle : year / 100 ≤ year / 4 := Nat.div_le_div_left (by decide) (by decide)
  unfold yearDays
  rw [hfour, hhundred, hera]
  omega

/-- Leap days are taken off a day of an era, so that its years are of one length. -/
def evenDay (day : ℕ) : ℕ := day - day / 1460 + day / 36524 - day / 146096

theorem evenDay_le_succ {day : ℕ} (hday : day + 1 < 146097) : evenDay day ≤ evenDay (day + 1) := by
  unfold evenDay
  omega

theorem evenDay_mono {day day' : ℕ} (h : day ≤ day') (hday : day' < 146097) :
    evenDay day ≤ evenDay day' := by
  induction day', h using Nat.le_induction with
  | base => exact Nat.le_refl _
  | succ day' h ih => exact (ih (Nat.lt_of_succ_lt hday)).trans (evenDay_le_succ hday)

theorem evenDay_bounds : ∀ year : Fin 400, 365 * year.val ≤ evenDay (yearDays year.val) ∧
    evenDay (yearDays (year.val + 1) - 1) < 365 * (year.val + 1) ∧
    yearDays (year.val + 1) ≤ 146097 := by
  decide +kernel

/-- The year of an era. -/
theorem year_of_evenDay {year day : ℕ} (hyear : year < 400) (hlow : yearDays year ≤ day)
    (hhigh : day < yearDays (year + 1)) : evenDay day / 365 = year := by
  have hbounds := evenDay_bounds ⟨year, hyear⟩
  dsimp only at hbounds
  obtain ⟨hfirst, hlast, hera⟩ := hbounds
  have hday : day < 146097 := hhigh.trans_le hera
  have hleast := hfirst.trans (evenDay_mono hlow hday)
  have hmost := (evenDay_mono (Nat.le_sub_one_of_lt hhigh) (by omega)).trans_lt hlast
  omega

/-- The month of a year that begins in March. -/
theorem month_of_dayOfYear {year month day : ℕ} (hmonth : 1 ≤ month ∧ month ≤ 12)
    (hday : 1 ≤ day ∧ day ≤ daysInMonth year month) :
    (5 * dayOfYear month day + 2) / 153 = (month + 9) % 12 := by
  obtain ⟨hlow, hhigh⟩ := hmonth
  have hfebruary : (if isLeap year then 29 else 28) ≤ 29 := by split_ifs <;> omega
  unfold daysInMonth at hday
  unfold dayOfYear
  interval_cases month <;> simp only [Nat.reduceEqDiff, or_false, or_true, if_true, if_false] at hday <;>
    omega

theorem dayOfYear_lt {year month day : ℕ} (hyear : 1 ≤ year) (hmonth : 1 ≤ month ∧ month ≤ 12)
    (hday : 1 ≤ day ∧ day ≤ daysInMonth year month) :
    dayOfYear month day < if isLeap (marchYear year month + 1) then 366 else 365 := by
  by_cases hfebruary : month = 2
  · subst hfebruary
    have hsame : marchYear year 2 + 1 = year := Nat.sub_add_cancel hyear
    rw [daysInMonth, if_pos rfl] at hday
    rw [hsame]
    change 337 + (day - 1) < _
    split_ifs at hday ⊢ <;> omega
  · have hlength := daysInMonth_range year month
    have hother : dayOfYear month day < 365 := by
      unfold dayOfYear
      omega
    split_ifs <;> omega

/-- A date is its era, the year of it, and the day of that. -/
theorem exists_era (n : ℕ) : ∃ era year, year < 400 ∧
    marchYear (date n).year (date n).month = 400 * era + year ∧
    n + 719468 = 146097 * era + yearDays year + dayOfYear (date n).month (date n).day ∧
    yearDays year + dayOfYear (date n).month (date n).day < yearDays (year + 1) ∧
    yearDays (year + 1) ≤ 146097 := by
  have hday := dayOfYear_lt (one_le_year_date n) (date n).month_range (date n).day_range
  have hnumber := dayNumber_date n
  unfold dayNumber at hnumber
  generalize marchYear (date n).year (date n).month = march at hday hnumber ⊢
  have hsplit := Nat.div_add_mod march 400
  have hyear := Nat.mod_lt march (show 0 < 400 by decide)
  refine ⟨march / 400, march % 400, hyear, hsplit.symm, ?_, ?_, ?_⟩
  · have hera := yearDays_era (march / 400) (march % 400)
    rw [hsplit] at hera
    omega
  · have hleap : isLeap (march % 400 + 1) = isLeap (march + 1) := by
      rw [Bool.eq_iff_iff, isLeap_iff, isLeap_iff]
      omega
    rw [yearDays_succ, hleap]
    omega
  · exact (evenDay_bounds ⟨march % 400, hyear⟩).2.2

/-- A year is no longer than 366 days. -/
theorem lt_year_date (n : ℕ) : n < 366 * ((date n).year + 1) := by
  have hnumber := dayNumber_date n
  have hday := dayOfYear_lt (one_le_year_date n) (date n).month_range (date n).day_range
  have hlength : dayOfYear (date n).month (date n).day < 366 := by
    split_ifs at hday <;> omega
  have hmarch : marchYear (date n).year (date n).month ≤ (date n).year := by
    unfold marchYear
    split_ifs <;> omega
  unfold dayNumber yearDays at hnumber
  omega

end Arithmetic

/-- Howard Hinnant's `civil_from_days`. -/
def civilFromDays (days : ℤ) : ℤ × ℤ × ℤ :=
  let z := days + 719468
  let era := z / 146097
  let doe := z - era * 146097
  let yoe := (doe - doe.tdiv 1460 + doe.tdiv 36524 - doe.tdiv 146096).tdiv 365
  let doy := doe - (365 * yoe + yoe.tdiv 4 - yoe.tdiv 100)
  let mp := (5 * doy + 2).tdiv 153
  let d := doy - (153 * mp + 2).tdiv 5 + 1
  let m := if mp < 10 then mp + 3 else mp - 9
  let y := yoe + era * 400 + if m ≤ 2 then 1 else 0
  (y, m, d)

/-- The arithmetic finds the dates of the calendar. -/
theorem civilFromDays_date (n : ℕ) :
    civilFromDays n = (((date n).year : ℤ), ((date n).month : ℤ), ((date n).day : ℤ)) := by
  obtain ⟨era, year, hyear, hmarch, hday, hhigh, hera⟩ := exists_era n
  have hmonth := month_of_dayOfYear (date n).month_range (date n).day_range
  have hrange := (date n).month_range
  have hfirst := (date n).day_range.1
  have hone := one_le_year_date n
  have hyearOf := year_of_evenDay hyear (Nat.le_add_right _ _) hhigh
  generalize hdoy : dayOfYear (date n).month (date n).day = doy at *
  generalize hdoe : yearDays year + doy = doe at *
  -- nothing is negative, so that division rounds down
  have htdiv : ∀ {a : ℤ} (b : ℤ), 0 ≤ a → a.tdiv b = a / b := fun b ha =>
    Int.tdiv_eq_ediv_of_nonneg ha
  have hz : (n : ℤ) + 719468 = 146097 * era + doe := by omega
  have heraOf : (146097 * (era : ℤ) + doe) / 146097 = era := by omega
  have hdoeOf : 146097 * (era : ℤ) + doe - era * 146097 = doe := by omega
  have hyoe : ((doe : ℤ) - (doe : ℤ).tdiv 1460 + (doe : ℤ).tdiv 36524 - (doe : ℤ).tdiv 146096).tdiv
      365 = year := by
    have heven : (doe : ℤ) - (doe : ℤ) / 1460 + (doe : ℤ) / 36524 - (doe : ℤ) / 146096 =
        (evenDay doe : ℕ) := by
      unfold evenDay
      omega
    rw [htdiv 1460 (by omega), htdiv 36524 (by omega), htdiv 146096 (by omega), heven,
      htdiv 365 (by omega)]
    omega
  have hdoyOf : (doe : ℤ) - (365 * year + (year : ℤ).tdiv 4 - (year : ℤ).tdiv 100) = doy := by
    rw [htdiv 4 (by omega), htdiv 100 (by omega), ← hdoe]
    unfold yearDays
    omega
  unfold dayOfYear at hdoy
  generalize hplace : ((date n).month + 9) % 12 = mp at *
  have hmp : (5 * (doy : ℤ) + 2).tdiv 153 = mp := by
    rw [htdiv 153 (by omega)]
    omega
  have hd : (doy : ℤ) - (153 * (mp : ℤ) + 2).tdiv 5 + 1 = (date n).day := by
    rw [htdiv 5 (by omega)]
    omega
  have hm : (if (mp : ℤ) < 10 then (mp : ℤ) + 3 else mp - 9) = (date n).month := by
    split_ifs <;> omega
  have hy : (year : ℤ) + era * 400 + (if ((date n).month : ℤ) ≤ 2 then 1 else 0) = (date n).year := by
    unfold marchYear at hmarch
    split_ifs at hmarch ⊢ <;> omega
  unfold civilFromDays
  simp only [hz, heraOf, hdoeOf, hyoe, hdoyOf, hmp, hd, hm, hy]

end Calendar
