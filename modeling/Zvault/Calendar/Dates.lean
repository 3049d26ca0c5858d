import Zvault.Calendar.Gregorian
import Zvault.EmergencyKit.Kit
import Zvault.Text.FixedWidth

/-!
# Dates that are written

`amz_date` of `zvault-sync` and `Date::from_unix_days` of `zvault-emergency-kit`. Both
find the date of the calendar. Before the year 10000 the dates that are signed stand in
the order of time.
-/

namespace Zvault.SecretSync

open Calendar (Date date civilFromDays)
open Text (fixed)

/-- `{:04}` and `{:02}`. -/
def padded (width : ℕ) (n : ℤ) : List Char :=
  if n < 0 then '-' :: List.leftpad (width - 1) '0' (Nat.toDigits 10 n.natAbs)
  else List.leftpad width '0' (Nat.toDigits 10 n.natAbs)

/-- `amz_date`. -/
def amzDate (unix : ℕ) : List Char :=
  let days : ℤ := if unix / 86400 < 2 ^ 63 then (unix / 86400 : ℕ) else 0
  let secs := unix % 86400
  let (y, m, d) := civilFromDays days
  padded 4 y ++ (padded 2 m ++ (padded 2 d ++ 'T' :: (padded 2 (secs / 3600 : ℕ) ++
    (padded 2 (secs % 3600 / 60 : ℕ) ++ (padded 2 (secs % 60 : ℕ) ++ ['Z'])))))

/-- A date and a time of day in the form `YYYYMMDDTHHMMSSZ`. -/
def stamp (d : Date) (hour minute second : ℕ) : List Char :=
  fixed 4 d.year ++ (fixed 2 d.month ++ (fixed 2 d.day ++ 'T' :: (fixed 2 hour ++
    (fixed 2 minute ++ (fixed 2 second ++ ['Z'])))))

theorem padded_natCast {width n : ℕ} (hwidth : 0 < width) (h : n < 10 ^ width) :
    padded width n = fixed width n := by
  rw [padded, if_neg (by omega), Int.natAbs_natCast, Text.leftpad_toDigits hwidth h]

/-- The time of day as the digits of one number. -/
def clock (secs : ℕ) : ℕ := 10000 * (secs / 3600) + 100 * (secs % 3600 / 60) + secs % 60

theorem clock_lt {secs secs' : ℕ} (h : secs < secs') : clock secs < clock secs' := by
  unfold clock
  omega

/-- The text of a time is a number of eight digits and one of six. -/
theorem stamp_eq (d : Date) (secs : ℕ) :
    stamp d (secs / 3600) (secs % 3600 / 60) (secs % 60) =
      fixed 8 d.number ++ 'T' :: (fixed 6 (clock secs) ++ ['Z']) := by
  have hmonth := d.month_range
  have hday := d.day_range
  have hlength := Calendar.daysInMonth_range d.year d.month
  have hdate : fixed 4 d.year ++ (fixed 2 d.month ++ fixed 2 d.day) = fixed 8 d.number := by
    rw [Text.fixed_append 2 (show d.day < 10 ^ 2 by omega),
      Text.fixed_append 4 (show d.month * 10 ^ 2 + d.day < 10 ^ (2 + 2) by omega)]
    congr 1
    unfold Date.number
    omega
  have htime : fixed 2 (secs / 3600) ++ (fixed 2 (secs % 3600 / 60) ++ fixed 2 (secs % 60)) =
      fixed 6 (clock secs) := by
    rw [Text.fixed_append 2 (show secs % 60 < 10 ^ 2 by omega),
      Text.fixed_append 2 (show secs % 3600 / 60 * 10 ^ 2 + secs % 60 < 10 ^ (2 + 2) by omega)]
    congr 1
    unfold clock
    omega
  rw [stamp, ← hdate, ← htime]
  simp only [List.append_assoc]

theorem amzDate_eq_stamp {unix : ℕ} (h : (date (unix / 86400)).year < 10000) :
    amzDate unix = stamp (date (unix / 86400)) (unix % 86400 / 3600) (unix % 86400 % 3600 / 60)
      (unix % 86400 % 60) := by
  have hdays : unix / 86400 < 2 ^ 63 := by
    have := Calendar.lt_year_date (unix / 86400)
    omega
  have hmonth := (date (unix / 86400)).month_range
  have hday := (date (unix / 86400)).day_range
  have hlength := Calendar.daysInMonth_range (date (unix / 86400)).year (date (unix / 86400)).month
  unfold amzDate
  dsimp only
  rw [if_pos hdays, Calendar.civilFromDays_date]
  dsimp only
  rw [padded_natCast (by decide) h, padded_natCast (by decide) (by omega),
    padded_natCast (by decide) (by omega), padded_natCast (by decide) (by omega),
    padded_natCast (by decide) (by omega), padded_natCast (by decide) (by omega), stamp]

/-- Times stand in the order of their texts. -/
theorem amzDate_lt {unix unix' : ℕ} (h : unix < unix')
    (hyear : (date (unix' / 86400)).year < 10000) : amzDate unix < amzDate unix' := by
  have hle : unix / 86400 ≤ unix' / 86400 := Nat.div_le_div_right h.le
  have hbefore : (date (unix / 86400)).year < 10000 :=
    (Calendar.year_monotone hle).trans_lt hyear
  rw [amzDate_eq_stamp hbefore, amzDate_eq_stamp hyear,
    stamp_eq, stamp_eq]
  rcases hle.lt_or_eq with hless | hsame
  · have hnumber := Calendar.number_strictMono hless
    have hmonth := (date (unix' / 86400)).month_range
    have hday := (date (unix' / 86400)).day_range
    have hlength := Calendar.daysInMonth_range (date (unix' / 86400)).year (date (unix' / 86400)).month
    have hsmall : (date (unix' / 86400)).number < 10 ^ 8 := by
      unfold Date.number
      omega
    have hlengths : (fixed 8 (date (unix / 86400)).number).length =
        (fixed 8 (date (unix' / 86400)).number).length := by
      rw [Text.length_fixed, Text.length_fixed]
    exact Text.append_lt_append hlengths (Text.fixed_lt hnumber hsmall) _ _
  · -- on the same day the time of day is later
    have hclock : clock (unix % 86400) < clock (unix' % 86400) := clock_lt (by omega)
    have hsmall : clock (unix' % 86400) < 10 ^ 6 := by
      unfold clock
      omega
    have hlengths : (fixed 6 (clock (unix % 86400))).length =
        (fixed 6 (clock (unix' % 86400))).length := by
      rw [Text.length_fixed, Text.length_fixed]
    have htail := Text.append_lt_append hlengths (Text.fixed_lt hclock hsmall) ['Z'] ['Z']
    rw [hsame]
    exact List.append_left_lt (List.cons_lt_cons_iff.mpr (.inr ⟨rfl, htail⟩))

/-- Before the year 10000 the date of the calendar and the time of the day are written, and later
times behind earlier ones. -/
theorem amzDate_civil {unix : ℕ} (h : (date (unix / 86400)).year < 10000) :
    (∃ hour minute second, hour < 24 ∧ minute < 60 ∧ second < 60 ∧
      unix % 86400 = 3600 * hour + 60 * minute + second ∧
      amzDate unix = stamp (date (unix / 86400)) hour minute second) ∧
    ∀ earlier < unix, amzDate earlier < amzDate unix := by
  refine ⟨⟨unix % 86400 / 3600, unix % 86400 % 3600 / 60, unix % 86400 % 60, ?_, ?_, ?_, ?_,
    amzDate_eq_stamp h⟩, fun earlier hearlier => amzDate_lt hearlier h⟩ <;> omega

/-- A second of a leap day. -/
theorem amzDate_civil_example :
    (∃ hour minute second, hour < 24 ∧ minute < 60 ∧ second < 60 ∧
      1709210096 % 86400 = 3600 * hour + 60 * minute + second ∧
      amzDate 1709210096 = stamp (date (1709210096 / 86400)) hour minute second) ∧
    (∀ earlier < 1709210096, amzDate earlier < amzDate 1709210096) ∧
    amzDate 1709210096 = "20240229T123456Z".toList := by
  have hyear : (date (1709210096 / 86400)).year < 10000 := by
    have hdate := congrArg Prod.fst (Calendar.civilFromDays_date (1709210096 / 86400))
    have hcivil : (civilFromDays ((1709210096 / 86400 : ℕ) : ℤ)).1 = 2024 := by decide
    rw [hcivil] at hdate
    dsimp only at hdate
    omega
  obtain ⟨htime, horder⟩ := amzDate_civil hyear
  exact ⟨htime, horder, by decide⟩

end Zvault.SecretSync

namespace Zvault.EmergencyKit

open Calendar (date civilFromDays)

/-- `Date::from_unix_days`, from 1970 on. A year that is too large for its word is the largest. -/
def Date.fromUnixDays (days : ℕ) : Date where
  year := min (civilFromDays days).1.toNat (2 ^ 16 - 1)
  month := (civilFromDays days).2.1.toNat
  day := (civilFromDays days).2.2.toNat
  year_lt := by omega
  month_range := by
    rw [Calendar.civilFromDays_date]
    exact (date days).month_range
  day_range := by
    have hlength := Calendar.daysInMonth_range (date days).year (date days).month
    have hday := (date days).day_range
    rw [Calendar.civilFromDays_date]
    change 1 ≤ (date days).day ∧ (date days).day ≤ 31
    omega

/-- A kit is dated by the calendar. -/
theorem Date.fromUnixDays_eq {days : ℕ} (h : (date days).year < 2 ^ 16) :
    (Date.fromUnixDays days).year = (date days).year ∧
      (Date.fromUnixDays days).month = (date days).month ∧
      (Date.fromUnixDays days).day = (date days).day := by
  have hcivil := Calendar.civilFromDays_date days
  have hyear : (civilFromDays days).1.toNat = (date days).year := by rw [hcivil, Int.toNat_natCast]
  have hmonth : (civilFromDays days).2.1.toNat = (date days).month := by rw [hcivil, Int.toNat_natCast]
  have hday : (civilFromDays days).2.2.toNat = (date days).day := by rw [hcivil, Int.toNat_natCast]
  refine ⟨?_, hmonth, hday⟩
  change min (civilFromDays days).1.toNat (2 ^ 16 - 1) = (date days).year
  omega

end Zvault.EmergencyKit
