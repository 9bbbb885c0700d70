import Mailutils.Text
import Mathlib.Tactic.IntervalCases

/-!
The calendar functions (`libmailutils/datetime/{jd,doy,dow,yd,unixtime,streamftime}.c`) against the
Gregorian calendar, whose days are counted from 1 January of the year 1.
-/
namespace Mailutils.Calendar

/-- A value of the type `int`. -/
def IsInt (n : Int) : Prop := -2147483648 ≤ n ∧ n ≤ 2147483647

instance (n : Int) : Decidable (IsInt n) := inferInstanceAs (Decidable (_ ∧ _))

/-- The value of an expression with the given subexpressions; `none` when one of them overflows. -/
def checked (subexpressions : List Int) (value : Int) : Option Int :=
  if ∀ n ∈ value :: subexpressions, IsInt n then some value else none

def mu_datetime_julianday (year month day : Int) : Option Int :=
  let a := (14 - month).tdiv 12
  let y := year + 4800 - a
  let m := month + 12 * a - 3
  checked [14 - month, a, year + 4800, y, 12 * a, month + 12 * a, m, 153 * m, 153 * m + 2, (153 * m + 2).tdiv 5,
      day + (153 * m + 2).tdiv 5, 365 * y, day + (153 * m + 2).tdiv 5 + 365 * y, y.tdiv 4,
      day + (153 * m + 2).tdiv 5 + 365 * y + y.tdiv 4, y.tdiv 100,
      day + (153 * m + 2).tdiv 5 + 365 * y + y.tdiv 4 - y.tdiv 100, y.tdiv 400,
      day + (153 * m + 2).tdiv 5 + 365 * y + y.tdiv 4 - y.tdiv 100 + y.tdiv 400]
    (day + (153 * m + 2).tdiv 5 + 365 * y + y.tdiv 4 - y.tdiv 100 + y.tdiv 400 - 32045)

def month_start : List Int := [0, 31, 59, 90, 120, 151, 181, 212, 243, 273, 304, 334, 365]

def leap_year (y : Int) : Bool := y.tmod 4 = 0 ∧ (y.tmod 100 ≠ 0 ∨ y.tmod 400 = 0)

def mu_datetime_dayofyear (year month day : Int) : Int :=
  if year < 0 ∨ month < 1 ∨ 12 < month ∨ day < 1 then -1
  else
    let leap : Int := if leap_year year then 1 else 0
    let month_days := month_start.getD month.toNat 0 - month_start.getD (month.toNat - 1) 0 +
      if month = 2 then leap else 0
    if month_days < day then -1
    else month_start.getD (month.toNat - 1) 0 + day + if month ≤ 2 then 0 else leap

def mu_datetime_dayofweek (year month day : Int) : Option Int := do
  let jd ← mu_datetime_julianday year month day
  checked [jd + 1] ((jd + 1).tmod 7)

def mu_datetime_year_days (year : Int) : Int := mu_datetime_dayofyear year 12 31

/-- `struct tm` -/
structure Tm where
  tm_sec : Int := 0
  tm_min : Int := 0
  tm_hour : Int := 0
  tm_mday : Int := 0
  tm_mon : Int := 0
  tm_year : Int := 0
  tm_wday : Int := 0
  tm_yday : Int := 0
  deriving DecidableEq, Repr

/-- `ISO_8601_weekdays`; the offset is `(366 / 7 + 2) * 7`. -/
def ISO_8601_weekdays (yday wday : Int) : Int := yday - (yday - wday + 4 + 378).tmod 7 + 4 - 1

/-- `days` and `year` as `mu_c_streamftime` computes them for the conversions of ISO 8601. -/
def iso_8601 (tm : Tm) : Int × Int :=
  let year := tm.tm_year + 1900
  let days := ISO_8601_weekdays tm.tm_yday tm.tm_wday
  if days < 0 then (ISO_8601_weekdays (tm.tm_yday + mu_datetime_year_days (year - 1)) tm.tm_wday, year - 1)
  else
    let d := ISO_8601_weekdays (tm.tm_yday - mu_datetime_year_days year) tm.tm_wday
    if 0 ≤ d then (d, year + 1) else (days, year)

/-- The conversion `%d` with a width, for values that are filled up on the left. -/
def printD (fill : UInt8) (width : Nat) (n : Int) : List UInt8 :=
  ((if n < 0 then [45] else []) ++ printLu n.natAbs).leftpad width fill

/-- The conversion `%V` of `mu_c_streamftime`. -/
def ftime_V (tm : Tm) : List UInt8 := printD 48 2 ((iso_8601 tm).1.tdiv 7 + 1)
/-- The conversion `%G` of `mu_c_streamftime`. -/
def ftime_G (tm : Tm) : List UInt8 := printD 32 4 (iso_8601 tm).2

/-- `mu_datetime_to_utc`; the second argument is the `utc_offset` of the time zone, if there is one. -/
def mu_datetime_to_utc (tm : Tm) (utc_offset : Option Int) : Option Int := do
  let jd ← mu_datetime_julianday (tm.tm_year + 1900) (tm.tm_mon + 1) tm.tm_mday
  let offset := utc_offset.getD 0
  let date := (jd - 2440588) * 86400
  let time := (tm.tm_hour * 60 + tm.tm_min) * 60
  checked [tm.tm_year + 1900, tm.tm_mon + 1, jd - 2440588, date, tm.tm_hour * 60, tm.tm_hour * 60 + tm.tm_min, time,
    date + time, date + time + tm.tm_sec] (date + time + tm.tm_sec - offset)

def leap (year : Nat) : Bool := year % 4 = 0 ∧ (year % 100 ≠ 0 ∨ year % 400 = 0)

def yearLength (year : Nat) : Nat := if leap year then 366 else 365

def monthLength (year month : Nat) : Nat :=
  if month = 2 then if leap year then 29 else 28 else if month ∈ [4, 6, 9, 11] then 30 else 31

/-- A day of the Gregorian calendar. -/
structure Date where
  year : Nat
  month : Nat
  day : Nat
  year_pos : 1 ≤ year
  month_pos : 1 ≤ month
  month_le : month ≤ 12
  day_pos : 1 ≤ day
  day_le : day ≤ monthLength year month

/-- The days of the years from 1 on. -/
def daysOfYears : Nat → Nat
  | 0 => 0
  | y + 1 => daysOfYears y + yearLength (y + 1)

/-- The days of the months from January on. -/
def daysOfMonths (year : Nat) : Nat → Nat
  | 0 => 0
  | m + 1 => daysOfMonths year m + monthLength year (m + 1)

/-- The number of days between 1 January of the year 1, a Monday, and a date. -/
def dayNumber (date : Date) : Nat :=
  daysOfYears (date.year - 1) + daysOfMonths date.year (date.month - 1) + (date.day - 1)

theorem leap_iff (year : Nat) : leap year = true ↔ year % 4 = 0 ∧ (year % 100 ≠ 0 ∨ year % 400 = 0) := by
  simp [leap]

theorem daysOfYears_eq (y : Nat) : (daysOfYears y : Int) = 365 * y + y / 4 - y / 100 + y / 400 := by
  induction y with
  | zero => rfl
  | succ y ih =>
    rw [daysOfYears, yearLength]
    split_ifs with h
    · obtain ⟨four, notHundred | fourHundred⟩ := (leap_iff _).mp h
      all_goals
        push_cast
        omega
    · rcases not_and_or.mp (mt (leap_iff _).mpr h) with notFour | neither
      · have quarter : ((y : Int) + 1) / 4 = y / 4 := by omega
        have century : ((y : Int) + 1) / 100 = y / 100 := by omega
        have fourth : ((y : Int) + 1) / 400 = y / 400 := by omega
        push_cast
        rw [quarter, century, fourth]
        omega
      · obtain ⟨hundred, notFourHundred⟩ := not_or.mp neither
        push_cast
        omega

theorem monthLength_le (year month : Nat) : monthLength year month ≤ 31 := by
  unfold monthLength
  split_ifs <;> omega

theorem daysOfMonths_eq (year : Nat) {month : Nat} (pos : 1 ≤ month) (le : month ≤ 12) :
    (daysOfMonths year (month - 1) : Int) =
      month_start.getD (month - 1) 0 + if 2 < month ∧ leap year then 1 else 0 := by
  interval_cases month <;> cases leaps : leap year <;> simp [daysOfMonths, monthLength, month_start, leaps]

theorem checked_eq {subexpressions : List Int} {value : Int} (all : ∀ n ∈ value :: subexpressions, IsInt n) :
    checked subexpressions value = some value := if_pos all

/-- The Julian day with the year that begins in March, and no overflow for years up to 5000001. -/
theorem julianday_march {year month day a : Int} (shift : (14 - month).tdiv 12 = a) (bit : 0 ≤ a ∧ a ≤ 1)
    (low : 3 ≤ month + 12 * a) (high : month + 12 * a ≤ 14) (day_pos : 1 ≤ day) (day_le : day ≤ 31)
    (year_pos : 0 ≤ year) (year_le : year ≤ 5000001) :
    mu_datetime_julianday year month day =
      some (day + (153 * (month + 12 * a - 3) + 2) / 5 + 365 * (year + 4800 - a) + (year + 4800 - a) / 4 -
        (year + 4800 - a) / 100 + (year + 4800 - a) / 400 - 32045) := by
  unfold mu_datetime_julianday
  dsimp only
  rw [shift, Int.tdiv_eq_ediv_of_nonneg (by omega : 0 ≤ 153 * (month + 12 * a - 3) + 2),
    Int.tdiv_eq_ediv_of_nonneg (by omega : 0 ≤ year + 4800 - a),
    Int.tdiv_eq_ediv_of_nonneg (by omega : 0 ≤ year + 4800 - a),
    Int.tdiv_eq_ediv_of_nonneg (by omega : 0 ≤ year + 4800 - a)]
  apply checked_eq
  simp only [List.forall_mem_cons, IsInt, List.not_mem_nil, false_imp_iff, implies_true, and_true]
  and_intros <;> omega

/-- The formula for the months that begins in March, and the table of the days before a month. -/
theorem march_month {month : Nat} (pos : 1 ≤ month) (le : month ≤ 12) :
    ∃ a, (14 - (month : Int)).tdiv 12 = a ∧ (month ≤ 2 ∧ a = 1 ∨ 2 < month ∧ a = 0) ∧
      month_start.getD (month - 1) 0 = (153 * (month + 12 * a - 3) + 2) / 5 + 59 - 365 * a := by
  interval_cases month <;> exact ⟨_, rfl, by decide, by decide⟩

theorem julianday_eq (date : Date) (le : date.year ≤ 5000001) :
    mu_datetime_julianday date.year date.month date.day = some ((dayNumber date : Int) + 1721426) := by
  obtain ⟨year, month, day, year_pos, month_pos, month_le, day_pos, day_le⟩ := date
  dsimp only at le ⊢
  have day31 := day_le.trans (monthLength_le year month)
  have number : ((dayNumber ⟨year, month, day, year_pos, month_pos, month_le, day_pos, day_le⟩ : Nat) : Int) =
      daysOfYears (year - 1) + daysOfMonths year (month - 1) + (day - 1) := by
    rw [dayNumber]; push_cast [day_pos]; ring
  rw [number, daysOfMonths_eq year month_pos month_le]
  obtain ⟨a, shift, which, table⟩ := march_month month_pos month_le
  rw [julianday_march shift (by omega) (by omega) (by omega) (by omega) (by omega) (by omega) (by omega),
    Option.some.injEq, table]
  have march : 0 ≤ (153 * ((month : Int) + 12 * a - 3) + 2) / 5 := by omega
  generalize (153 * ((month : Int) + 12 * a - 3) + 2) / 5 = days at march
  have cycle4 (y : Int) : (y + 4800) / 4 = y / 4 + 1200 := by omega
  have cycle100 (y : Int) : (y + 4800) / 100 = y / 100 + 48 := by omega
  have cycle400 (y : Int) : (y + 4800) / 400 = y / 400 + 12 := by omega
  have shifted : (year : Int) + 4800 - a = year - a + 4800 := by ring
  rw [shifted]
  rcases which with ⟨early, rfl⟩ | ⟨late, rfl⟩
  · have years := daysOfYears_eq (year - 1)
    push_cast [year_pos] at years
    rw [if_neg (by omega), years, cycle4 (year - 1), cycle100 (year - 1), cycle400 (year - 1)]
    ring
  · -- from March on, a leap day of the year itself counts
    have years := daysOfYears_eq year
    have last : daysOfYears year = daysOfYears (year - 1) + yearLength year := by
      obtain ⟨y, rfl⟩ := Nat.exists_eq_add_of_le' year_pos
      rfl
    rw [sub_zero, cycle4 year, cycle100 year, cycle400 year]
    rw [yearLength] at last
    cases leaps : leap year
    · simp only [leaps, Bool.false_eq_true, and_false, if_false] at last ⊢
      omega
    · simp only [leaps, late, and_self, if_true] at last ⊢
      omega

theorem julianday_int (date : Date) (le : date.year ≤ 5000001) : dayNumber date < 2000000000 := by
  have years := daysOfYears_eq (date.year - 1)
  have months := daysOfMonths_eq date.year date.month_pos date.month_le
  have day := date.day_le.trans (monthLength_le date.year date.month)
  obtain ⟨a, -, which, table⟩ := march_month date.month_pos date.month_le
  have month_le := date.month_le
  rw [table] at months
  rw [dayNumber]
  split_ifs at months <;> omega

/-- The next day. -/
def Date.next (date : Date) : Date :=
  if later : date.day < monthLength date.year date.month then
    { date with day := date.day + 1, day_pos := by omega, day_le := later }
  else if more : date.month < 12 then
    { date with month := date.month + 1, day := 1, month_pos := by omega, month_le := more, day_pos := le_rfl,
                day_le := by unfold monthLength; split_ifs <;> omega }
  else
    { date with year := date.year + 1, month := 1, day := 1, year_pos := by omega, month_pos := le_rfl,
                month_le := by decide, day_pos := le_rfl, day_le := by unfold monthLength; split_ifs <;> omega }

theorem daysOfMonths_year (year : Nat) : daysOfMonths year 12 = yearLength year := by
  cases leaps : leap year <;> simp [daysOfMonths, monthLength, yearLength, leaps]

private theorem dayNumber_next (date : Date) : dayNumber date.next = dayNumber date + 1 := by
  obtain ⟨year, month, day, year_pos, month_pos, month_le, day_pos, day_le⟩ := date
  unfold Date.next
  dsimp only at *
  split_ifs with later more
  · simp only [dayNumber]
    omega
  · obtain ⟨m, rfl⟩ := Nat.exists_eq_add_of_le' month_pos
    simp only [dayNumber, Nat.add_sub_cancel, daysOfMonths] at *
    omega
  · obtain rfl : month = 12 := by omega
    obtain ⟨y, rfl⟩ := Nat.exists_eq_add_of_le' year_pos
    have whole : daysOfMonths (y + 1) (12 - 1) + monthLength (y + 1) 12 = yearLength (y + 1) :=
      daysOfMonths_year (y + 1)
    have none : daysOfMonths (y + 1 + 1) 0 = 0 := rfl
    simp only [dayNumber, Nat.add_sub_cancel, daysOfYears, Nat.sub_self, none]
    omega

theorem dayofweek_eq (date : Date) (le : date.year ≤ 5000001) :
    mu_datetime_dayofweek date.year date.month date.day = some (((dayNumber date : Int) + 1) % 7) := by
  have small : dayNumber date + 1721426 < 2147483647 := by
    have := julianday_int date le
    omega
  rw [mu_datetime_dayofweek, julianday_eq date le, Option.bind_eq_bind, Option.bind_some,
    Int.tmod_eq_emod_of_nonneg (by omega)]
  rw [checked_eq, Option.some.injEq]
  · omega
  · simp only [List.forall_mem_cons, IsInt, List.not_mem_nil, false_imp_iff, implies_true, and_true]
    omega

private theorem leap_year_eq (year : Nat) : leap_year year = leap year := by
  rw [leap_year, leap, Int.tmod_eq_emod_of_nonneg (by omega), Int.tmod_eq_emod_of_nonneg (by omega),
    Int.tmod_eq_emod_of_nonneg (by omega), decide_eq_decide]
  omega

theorem dayofyear_eq (date : Date) :
    mu_datetime_dayofyear date.year date.month date.day =
      (daysOfMonths date.year (date.month - 1) : Int) + date.day := by
  obtain ⟨year, month, day, year_pos, month_pos, month_le, day_pos, day_le⟩ := date
  dsimp only
  rw [daysOfMonths_eq year month_pos month_le, mu_datetime_dayofyear, if_neg (by omega), leap_year_eq]
  interval_cases month <;> cases leaps : leap year <;>
    simp [month_start, monthLength, leaps] at day_le ⊢ <;> omega

theorem year_days_eq {year : Nat} (pos : 1 ≤ year) : mu_datetime_year_days year = yearLength year := by
  have day_le : 31 ≤ monthLength year 12 := by simp [monthLength]
  have last := dayofyear_eq ⟨year, 12, 31, pos, by decide, by decide, by decide, day_le⟩
  have whole : daysOfMonths year (12 - 1) + monthLength year 12 = yearLength year := daysOfMonths_year year
  have december : monthLength year 12 = 31 := by simp [monthLength]
  rw [mu_datetime_year_days]
  dsimp only at last
  rw [show ((12 : Nat) : Int) = 12 from rfl, show ((31 : Nat) : Int) = 31 from rfl] at last
  rw [last, ← whole, december]
  push_cast
  rfl

/-- The Thursday of the week, from Monday to Sunday, that the date is in. -/
def thursday (date : Date) : Nat := dayNumber date - dayNumber date % 7 + 3

/-- The week of ISO 8601: it belongs to the year that its Thursday is in, and is counted by these. -/
structure IsoWeek (date : Date) (week year : Nat) : Prop where
  begins : daysOfYears (year - 1) ≤ thursday date
  ends : thursday date < daysOfYears year
  week_eq : week = (thursday date - daysOfYears (year - 1)) / 7 + 1

theorem IsoWeek.of_start {date : Date} {y : Nat} (begins : daysOfYears y ≤ thursday date)
    (ends : thursday date < daysOfYears (y + 1)) : IsoWeek date ((thursday date - daysOfYears y) / 7 + 1) (y + 1) :=
  ⟨begins, ends, rfl⟩

/-- `struct tm` of a date. -/
structure TmOf (date : Date) (tm : Tm) : Prop where
  year : tm.tm_year = date.year - 1900
  yday : tm.tm_yday = mu_datetime_dayofyear date.year date.month date.day - 1
  wday : mu_datetime_dayofweek date.year date.month date.day = some tm.tm_wday

theorem yday_eq {date : Date} {tm : Tm} (of : TmOf date tm) :
    tm.tm_yday = dayNumber date - daysOfYears (date.year - 1) := by
  have := date.day_pos
  rw [of.yday, dayofyear_eq, dayNumber]
  push_cast [this]
  ring

theorem dayNumber_year (date : Date) :
    daysOfYears (date.year - 1) ≤ dayNumber date ∧ dayNumber date < daysOfYears date.year := by
  obtain ⟨year, month, day, year_pos, month_pos, month_le, day_pos, day_le⟩ := date
  obtain ⟨y, rfl⟩ := Nat.exists_eq_add_of_le' year_pos
  obtain ⟨m, rfl⟩ := Nat.exists_eq_add_of_le' month_pos
  have growing : Monotone (daysOfMonths (y + 1)) := monotone_nat_of_le_succ fun _ => Nat.le_add_right _ _
  have within := growing month_le
  rw [daysOfMonths_year, daysOfMonths] at within
  simp only [dayNumber, Nat.add_sub_cancel, daysOfYears]
  omega

theorem weekdays_eq {yday wday : Int} (low : -366 ≤ yday) (week : 0 ≤ wday ∧ wday ≤ 6) :
    ISO_8601_weekdays yday wday = yday - (yday - wday + 382) % 7 + 3 := by
  rw [ISO_8601_weekdays, Int.tmod_eq_emod_of_nonneg (by omega)]
  omega

theorem yearLength_cases (year : Nat) : yearLength year = 365 ∨ yearLength year = 366 := by
  unfold yearLength
  split_ifs <;> simp

theorem iso_8601_eq {date : Date} {tm : Tm} (of : TmOf date tm) (le : date.year ≤ 5000001) :
    ∃ week year : Nat, IsoWeek date week year ∧ (iso_8601 tm).1.tdiv 7 + 1 = week ∧ (iso_8601 tm).2 = year := by
  have wday : tm.tm_wday = ((dayNumber date : Int) + 1) % 7 := by
    have := of.wday
    rw [dayofweek_eq date le, Option.some.injEq] at this
    exact this.symm
  have yday := yday_eq of
  obtain ⟨begins, ends⟩ := dayNumber_year date
  obtain ⟨y, year⟩ := Nat.exists_eq_add_of_le' date.year_pos
  have length : daysOfYears (y + 1) = daysOfYears y + yearLength (y + 1) := rfl
  have days := yearLength_cases (y + 1)
  have current : tm.tm_year + 1900 = ((y + 1 : Nat) : Int) := by rw [of.year, year]; omega
  rw [year, Nat.add_sub_cancel] at begins yday
  rw [year] at ends
  have week : 0 ≤ ((dayNumber date : Int) + 1) % 7 ∧ ((dayNumber date : Int) + 1) % 7 ≤ 6 := by omega
  have here := @weekdays_eq ((dayNumber date : Int) - daysOfYears y) _ (by omega) week
  have next := @weekdays_eq ((dayNumber date : Int) - daysOfYears y - yearLength (y + 1)) _ (by omega) week
  rw [iso_8601, current, year_days_eq (by omega), yday, wday, here, next]
  dsimp only
  split_ifs with before after
  · -- the first days of January may belong to the last week of the year before
    obtain ⟨x, rfl⟩ : ∃ x, y = x + 1 := Nat.exists_eq_add_of_le' (by
      by_contra first
      obtain rfl : y = 0 := by omega
      rw [daysOfYears] at *
      omega)
    have length' : daysOfYears (x + 1) = daysOfYears x + yearLength (x + 1) := rfl
    have days' := yearLength_cases (x + 1)
    have previous : (((x + 1 + 1 : Nat) : Int) - 1) = ((x + 1 : Nat) : Int) := by omega
    rw [previous, year_days_eq (by omega), weekdays_eq (by omega) (by omega), Int.tdiv_eq_ediv_of_nonneg (by omega)]
    refine ⟨_, x + 1, .of_start ?_ ?_, ?_, rfl⟩
    all_goals
      rw [thursday]
      omega
  · -- and the last days of December to the first week of the year after
    have length' : daysOfYears (y + 1 + 1) = daysOfYears (y + 1) + yearLength (y + 1 + 1) := rfl
    have days' := yearLength_cases (y + 1 + 1)
    rw [Int.tdiv_eq_ediv_of_nonneg (by omega)]
    refine ⟨_, y + 1 + 1, .of_start ?_ ?_, ?_, by push_cast; ring⟩
    all_goals
      rw [thursday]
      omega
  · rw [Int.tdiv_eq_ediv_of_nonneg (by omega)]
    refine ⟨_, y + 1, .of_start ?_ ?_, ?_, rfl⟩
    all_goals
      rw [thursday]
      omega

/-- The four calendar functions and the conversions of ISO 8601 agree with the Gregorian calendar. -/
theorem calendar_agrees (date : Date) (tm : Tm) (le : date.year ≤ 5000000) (of : TmOf date tm) :
    (∃ jd jd₁, mu_datetime_julianday date.year date.month date.day = some jd ∧
      mu_datetime_julianday date.next.year date.next.month date.next.day = some (jd + 1) ∧
      mu_datetime_julianday date.year 1 1 = some jd₁ ∧
      mu_datetime_dayofyear date.year date.month date.day = jd - jd₁ + 1) ∧
    (∃ wday, mu_datetime_dayofweek date.year date.month date.day = some wday ∧
      mu_datetime_dayofweek date.next.year date.next.month date.next.day = some ((wday + 1) % 7)) ∧
    mu_datetime_dayofweek 1970 1 1 = some 4 ∧
    (∃ week year, IsoWeek date week year ∧ ftime_V tm = printD 48 2 week ∧ ftime_G tm = printD 32 4 year) := by
  have next_le : date.next.year ≤ 5000001 := by
    unfold Date.next
    split_ifs <;> dsimp only <;> omega
  have first_le : 1 ≤ monthLength date.year 1 := by simp [monthLength]
  have first := julianday_eq ⟨date.year, 1, 1, date.year_pos, le_rfl, by decide, le_rfl, first_le⟩
    (by dsimp only; omega)
  have jd := julianday_eq date (by omega)
  have jd' := julianday_eq date.next next_le
  have wday := dayofweek_eq date (by omega)
  have wday' := dayofweek_eq date.next next_le
  rw [dayNumber_next] at jd' wday'
  push_cast at jd' wday' first
  refine ⟨⟨_, _, jd, ?_, first, ?_⟩, ⟨_, wday, ?_⟩, by decide, ?_⟩
  · rw [jd', Option.some.injEq]
    ring
  · have day := date.day_pos
    rw [dayofyear_eq, dayNumber, dayNumber]
    simp only [Nat.sub_self, daysOfMonths]
    push_cast [day]
    ring
  · rw [wday', Option.some.injEq]
    omega
  · obtain ⟨week, year, iso, week_eq, year_eq⟩ := iso_8601_eq of (by omega)
    exact ⟨week, year, iso, by rw [ftime_V, week_eq], by rw [ftime_G, year_eq]⟩

/-- The first of January 2021 is in the last week of 2020. -/
theorem calendar_agrees_new_year : ∃ week year,
    IsoWeek ⟨2021, 1, 1, by decide, by decide, by decide, by decide, by decide⟩ week year ∧
      ftime_V { tm_year := 121, tm_yday := 0, tm_wday := 5 } = printD 48 2 week ∧
      ftime_G { tm_year := 121, tm_yday := 0, tm_wday := 5 } = printD 32 4 year :=
  (calendar_agrees ⟨2021, 1, 1, by decide, by decide, by decide, by decide, by decide⟩
    { tm_year := 121, tm_yday := 0, tm_wday := 5 } (by decide) ⟨by decide, by decide, by decide⟩).2.2.2

/-- 1 January 1970 -/
def epoch : Date := ⟨1970, 1, 1, by decide, by decide, by decide, by decide, by decide⟩

/-- The seconds from the epoch to the beginning of a date. -/
def midnight (date : Date) : Int := ((dayNumber date : Int) - dayNumber epoch) * 86400

/-- The seconds from the epoch to a time of a date. -/
def moment (date : Date) (tm : Tm) : Int := midnight date + tm.tm_hour * 3600 + tm.tm_min * 60 + tm.tm_sec

theorem dayNumber_epoch : (dayNumber epoch : Int) = 719162 := by
  have years := daysOfYears_eq 1969
  have months : daysOfMonths 1970 0 = 0 := rfl
  simp only [dayNumber, epoch]
  push_cast
  rw [years, months]
  rfl

theorem checked_eq_some {subexpressions : List Int} {value result : Int} :
    checked subexpressions value = some result ↔ (∀ n ∈ value :: subexpressions, IsInt n) ∧ value = result := by
  unfold checked
  split_ifs with all
  · rw [Option.some.injEq, and_iff_right all]
  · exact iff_of_false (by simp) fun both => all both.1

/-- A time of a date, in a time zone less than a day from UTC. -/
structure TimeOf (date : Date) (tm : Tm) (utc_offset : Option Int) : Prop where
  year : tm.tm_year = date.year - 1900
  month : tm.tm_mon = date.month - 1
  day : tm.tm_mday = date.day
  hour : 0 ≤ tm.tm_hour ∧ tm.tm_hour ≤ 23
  min : 0 ≤ tm.tm_min ∧ tm.tm_min ≤ 59
  sec : 0 ≤ tm.tm_sec ∧ tm.tm_sec ≤ 60
  offset : -86400 < utc_offset.getD 0 ∧ utc_offset.getD 0 < 86400

/-- The number of seconds is exact when the beginning of the day, the local time and the time in UTC are
    `int` numbers of seconds. -/
theorem to_utc_iff (date : Date) (tm : Tm) (utc_offset : Option Int) (le : date.year ≤ 9999)
    (time : TimeOf date tm utc_offset) :
    mu_datetime_to_utc tm utc_offset = some (moment date tm - utc_offset.getD 0) ↔
      IsInt (midnight date) ∧ IsInt (moment date tm) ∧ IsInt (moment date tm - utc_offset.getD 0) := by
  obtain ⟨year, month, day, hour, min, sec, offset⟩ := time
  have jd := julianday_eq date (by omega)
  have small := julianday_int date (by omega)
  have month_le := date.month_le
  have month_pos := date.month_pos
  have year_eq : tm.tm_year + 1900 = date.year := by omega
  have month_eq : tm.tm_mon + 1 = date.month := by omega
  have days : (dayNumber date : Int) + 1721426 - 2440588 = dayNumber date - 719162 := by ring
  rw [mu_datetime_to_utc, year_eq, month_eq, day, jd, Option.bind_eq_bind, Option.bind_some, checked_eq_some, days,
    moment, midnight, dayNumber_epoch]
  simp only [List.forall_mem_cons, IsInt, List.not_mem_nil, false_imp_iff, implies_true, and_true]
  generalize ((dayNumber date : Int) - 719162) * 86400 = seconds
  constructor
  · rintro ⟨all, -⟩
    omega
  · intro fits
    and_intros <;> omega

/-- The day after the last moment that an `int` number of seconds reaches. -/
theorem to_utc_overflows : ∃ date : Date, date.year = 2038 ∧ date.month = 1 ∧ date.day = 20 ∧
    mu_datetime_to_utc { tm_year := 138, tm_mon := 0, tm_mday := 20 } none = none ∧
    moment date { tm_year := 138, tm_mon := 0, tm_mday := 20 } = 2147558400 := by
  refine ⟨⟨2038, 1, 20, by decide, by decide, by decide, by decide, by decide⟩, rfl, rfl, rfl, by decide, ?_⟩
  have years := daysOfYears_eq 2037
  have months : daysOfMonths 2038 0 = 0 := rfl
  rw [moment, midnight, dayNumber_epoch]
  simp only [dayNumber]
  push_cast
  rw [years, months]
  rfl

/-- Half past eleven in the evening, an hour east of UTC. -/
def evening : Tm := { tm_year := 70, tm_mon := 0, tm_mday := 1, tm_hour := 23, tm_min := 30, tm_sec := 7 }

theorem to_utc_iff_evening : mu_datetime_to_utc evening (some 3600) = some 81007 := by
  have time : moment epoch evening = 84607 := by
    rw [moment, midnight, sub_self]
    decide
  have start : midnight epoch = 0 := by rw [midnight, sub_self]; rfl
  refine ((to_utc_iff epoch evening (some 3600) (by decide)
    ⟨by decide, by decide, by decide, by decide, by decide, by decide, by decide⟩).mpr ?_).trans ?_
  · rw [time, start]
    decide
  · rw [time]
    rfl

end Mailutils.Calendar
