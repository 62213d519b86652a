import Mathlib.Tactic.IntervalCases
import RuleMachine.Timestamp.Calendar

/-! # Days and dates

Every day has a date, which lies within the length of its month. Counting the days
up to a date undoes this, in both orders.

An era falls into centuries, a century into groups of four years and a group into
years of 365 days. The last year of a group has one day more, unless the group is
the last of a century and the century is not the last of the era.
-/

namespace RuleMachine

namespace Date

/-- Whether an era has a day with the given number in its year, by the place of the
year in the era. -/
structure IsYearDay (century group year day : Nat) : Prop where
  century_le : century ≤ 3
  group_le : group ≤ 24
  year_le : year ≤ 3
  day_le : day ≤ 365
  additional : day = 365 → year = 3 ∧ (group = 24 → century = 3)

theorem exists_isYearDay {dayOfEra : Nat} (h : dayOfEra < 146097) :
    ∃ century group year day, IsYearDay century group year day ∧
      dayOfEra = 36524 * century + 1461 * group + 365 * year + day := by
  let century := min (dayOfEra / 36524) 3
  let group := (dayOfEra - 36524 * century) / 1461
  let year := min ((dayOfEra - 36524 * century - 1461 * group) / 365) 3
  let day := dayOfEra - 36524 * century - 1461 * group - 365 * year
  refine ⟨century, group, year, day, ⟨?_, ?_, ?_, ?_, ?_⟩, ?_⟩ <;> omega

/-- The days of an era before a year. -/
def firstDay (year : Nat) : Nat := 365 * year + year / 4 - year / 100

theorem firstDay_eq {century group year day : Nat} (h : IsYearDay century group year day) :
    firstDay (100 * century + 4 * group + year) = 36524 * century + 1461 * group + 365 * year := by
  obtain ⟨hcentury, hgroup, hyear, hday, hadditional⟩ := h
  unfold firstDay
  omega

/-- The year of an era that a day lies in. -/
def yearOfEra (dayOfEra : Nat) : Nat :=
  (dayOfEra - dayOfEra / 1460 + dayOfEra / 36524 - dayOfEra / 146096) / 365

theorem yearOfEra_eq {century group year day : Nat} (h : IsYearDay century group year day) :
    yearOfEra (36524 * century + 1461 * group + 365 * year + day) =
      100 * century + 4 * group + year := by
  obtain ⟨hcentury, hgroup, hyear, hday, hadditional⟩ := h
  have hyears :
      (365 * year + day - (24 * century + group + 365 * year + day) / 1460) / 365 = year := by
    omega
  have hle : (24 * century + group + 365 * year + day) / 1460 ≤ 365 * year + day := by omega
  have hlast : 1461 * group + 365 * year + day < 36524 ∨
      1461 * group + 365 * year + day = 36524 ∧ century = 3 := by omega
  generalize hdayOfEra : 36524 * century + 1461 * group + 365 * year + day = dayOfEra
  -- The last day of the era is taken for the first of a fifth century and of a next era.
  have hcenturies : dayOfEra / 36524 = century + dayOfEra / 146096 := by
    obtain hlt | ⟨heq, rfl⟩ := hlast
    · have hera : dayOfEra / 146096 = 0 := Nat.div_eq_of_lt (by omega)
      have hcentury : dayOfEra / 36524 = century := Nat.div_eq_of_lt_le (by omega) (by omega)
      rw [hera, hcentury, Nat.add_zero]
    · omega
  have hgroups : dayOfEra / 1460 =
      25 * century + group + (24 * century + group + 365 * year + day) / 1460 := by
    clear hyears hle hcenturies
    omega
  have hdays : dayOfEra - dayOfEra / 1460 + dayOfEra / 36524 - dayOfEra / 146096 =
      365 * (100 * century + 4 * group) +
        (365 * year + day - (24 * century + group + 365 * year + day) / 1460) := by
    rw [hgroups, hcenturies]
    clear hyears hcenturies hgroups
    generalize (24 * century + group + 365 * year + day) / 1460 = groups at hle ⊢
    generalize dayOfEra / 146096 = eras
    omega
  rw [yearOfEra, hdays, Nat.mul_add_div (by decide), hyears]

/-! ## Months

The months of a year that starts in March are counted from zero.
-/

/-- The days of a year before a month. -/
def daysBefore (month : Nat) : Nat := (153 * month + 2) / 5

/-- The month of a year that a day lies in. -/
def monthOf (dayOfYear : Nat) : Nat := (5 * dayOfYear + 2) / 153

/-- The number of a month in the calendar. -/
def calendarMonth (month : Nat) : Nat := if month < 10 then month + 3 else month - 9

def ofMonth (year : Int) (month day : Nat) : Date :=
  { year := year + (if calendarMonth month ≤ 2 then 1 else 0)
    month := calendarMonth month
    day := day + 1 }

def ofYearDay (year : Int) (dayOfYear : Nat) : Date :=
  ofMonth year (monthOf dayOfYear) (dayOfYear - daysBefore (monthOf dayOfYear))

theorem monthOf_lt {dayOfYear : Nat} (h : dayOfYear ≤ 365) : monthOf dayOfYear < 12 := by
  unfold monthOf
  omega

theorem daysBefore_monthOf_le (dayOfYear : Nat) :
    daysBefore (monthOf dayOfYear) ≤ dayOfYear := by
  unfold daysBefore monthOf
  omega

theorem lt_daysBefore_monthOf (dayOfYear : Nat) :
    dayOfYear < daysBefore (monthOf dayOfYear + 1) := by
  unfold daysBefore monthOf
  omega

theorem calendarMonth_mem {month : Nat} (h : month < 12) :
    1 ≤ calendarMonth month ∧ calendarMonth month ≤ 12 := by
  unfold calendarMonth
  split <;> omega

/-- A month lasts until the next one starts. February is the last month and depends
on the year. -/
theorem monthLength_calendarMonth {month : Nat} (h : month < 11) (year : Int) :
    monthLength year (calendarMonth month) = daysBefore (month + 1) - daysBefore month := by
  interval_cases month <;> rfl

theorem toDay_ofMonth (era : Int) {year month : Nat} (hyear : year < 400) (hmonth : month < 12)
    (day : Nat) : (ofMonth (era * 400 + year) month day).toDay =
      era * daysPerEra + (firstDay year + daysBefore month + day : Nat) - epochOffset := by
  have hdiv : (era * 400 + year).ediv 400 = era := by
    change (era * 400 + year) / 400 = era
    omega
  have hmod : (era * 400 + year).emod 400 = year := by
    change (era * 400 + year) % 400 = year
    omega
  have hfirst : year * 365 + (year : Int).ediv 4 - (year : Int).ediv 100 = firstDay year := by
    change year * 365 + (year : Int) / 4 - (year : Int) / 100 = firstDay year
    unfold firstDay
    omega
  have hbefore : (153 * (month : Int) + 2).ediv 5 = daysBefore month := rfl
  have hback : (calendarMonth month + 9) % 12 = month := by
    unfold calendarMonth
    split <;> omega
  by_cases hlate : calendarMonth month ≤ 2
  · simp only [toDay, ofMonth, if_pos hlate, Int.add_sub_cancel, hback, hdiv, hmod, hfirst, hbefore]
    omega
  · simp only [toDay, ofMonth, if_neg hlate, Int.add_zero, hback, hdiv, hmod, hfirst, hbefore]
    omega

theorem day_le_monthLength {year : Int} {dayOfYear : Nat} (h : dayOfYear ≤ 365)
    (hadditional : dayOfYear = 365 → isLeapYear (year + 1) = true) :
    (ofYearDay year dayOfYear).day ≤
      monthLength (ofYearDay year dayOfYear).year (ofYearDay year dayOfYear).month := by
  have hlt := lt_daysBefore_monthOf dayOfYear
  have hle := daysBefore_monthOf_le dayOfYear
  have hmonth := monthOf_lt h
  unfold ofYearDay
  generalize monthOf dayOfYear = month at hlt hle hmonth ⊢
  obtain hearly | rfl : month < 11 ∨ month = 11 := by omega
  · change dayOfYear - daysBefore month + 1 ≤ monthLength _ (calendarMonth month)
    rw [monthLength_calendarMonth hearly]
    omega
  · change dayOfYear - 337 + 1 ≤ if isLeapYear (year + 1) then 29 else 28
    obtain hlt | rfl : dayOfYear < 365 ∨ dayOfYear = 365 := by omega
    · split <;> omega
    · rw [if_pos (hadditional rfl)]

theorem calendarMonth_add {month : Nat} (hpos : 1 ≤ month) (hle : month ≤ 12) :
    calendarMonth ((month + 9) % 12) = month := by
  unfold calendarMonth
  split <;> omega

/-- A day within the length of its month lies in this month. Only leap years have a
day beyond those of all years. -/
theorem monthOf_add {year : Int} {month day : Nat} (h : month < 12)
    (hday : day < monthLength year (calendarMonth month)) :
    monthOf (daysBefore month + day) = month ∧ daysBefore month + day ≤ 365 ∧
      (daysBefore month + day = 365 → month = 11 ∧ isLeapYear year = true) := by
  obtain hearly | rfl : month < 11 ∨ month = 11 := by omega
  · rw [monthLength_calendarMonth hearly] at hday
    unfold monthOf daysBefore at *
    omega
  · change day < if isLeapYear year then 29 else 28 at hday
    change (5 * (337 + day) + 2) / 153 = 11 ∧ 337 + day ≤ 365 ∧
      (337 + day = 365 → 11 = 11 ∧ isLeapYear year = true)
    split at hday
    next hleap => exact ⟨by omega, by omega, fun _ => ⟨rfl, hleap⟩⟩
    next => omega

/-! ## The date of a day -/

theorem exists_era (day : Int) : ∃ era : Int, ∃ century group year dayOfYear,
    IsYearDay century group year dayOfYear ∧ day = era * daysPerEra +
      (firstDay (100 * century + 4 * group + year) + dayOfYear : Nat) - epochOffset := by
  have hlt : ((day + epochOffset) % 146097).toNat < 146097 := by omega
  obtain ⟨century, group, year, dayOfYear, h, heq⟩ := exists_isYearDay hlt
  refine ⟨(day + epochOffset) / 146097, century, group, year, dayOfYear, h, ?_⟩
  rw [firstDay_eq h, ← heq, daysPerEra]
  omega

theorem ofDay_eq (era : Int) {century group year dayOfYear : Nat}
    (h : IsYearDay century group year dayOfYear) :
    ofDay (era * daysPerEra +
      (firstDay (100 * century + 4 * group + year) + dayOfYear : Nat) - epochOffset) =
      ofYearDay (era * 400 + (100 * century + 4 * group + year : Nat)) dayOfYear := by
  have hyear := yearOfEra_eq h
  rw [← firstDay_eq h, yearOfEra] at hyear
  have hlt : firstDay (100 * century + 4 * group + year) + dayOfYear < 146097 := by
    rw [firstDay_eq h]
    obtain ⟨hcentury, hgroup, hyear, hday, -⟩ := h
    omega
  unfold ofDay
  rw [Int.sub_add_cancel]
  generalize hfirst : firstDay (100 * century + 4 * group + year) = first at hyear hlt ⊢
  have hera : (era * daysPerEra + (first + dayOfYear : Nat)).ediv daysPerEra = era := by
    change (era * 146097 + (first + dayOfYear : Nat)) / 146097 = era
    omega
  have hday : ((era * daysPerEra + (first + dayOfYear : Nat)).emod daysPerEra).toNat =
      first + dayOfYear := by
    change ((era * 146097 + (first + dayOfYear : Nat)) % 146097).toNat = first + dayOfYear
    omega
  simp only [hera, hday, hyear]
  rw [← firstDay, hfirst, Nat.add_sub_cancel_left]
  rfl

theorem toDay_ofYearDay (era : Int) {century group year dayOfYear : Nat}
    (h : IsYearDay century group year dayOfYear) :
    (ofYearDay (era * 400 + (100 * century + 4 * group + year : Nat)) dayOfYear).toDay =
      era * daysPerEra +
        (firstDay (100 * century + 4 * group + year) + dayOfYear : Nat) - epochOffset := by
  obtain ⟨hcentury, hgroup, hyear, hday, -⟩ := h
  rw [ofYearDay, toDay_ofMonth era (by omega) (monthOf_lt hday), Nat.add_assoc,
    Nat.add_sub_cancel' (daysBefore_monthOf_le dayOfYear)]

/-- The date of a day is that many days from the start of 1970. -/
theorem toDay_ofDay (day : Int) : (ofDay day).toDay = day := by
  obtain ⟨era, century, group, year, dayOfYear, h, rfl⟩ := exists_era day
  rw [ofDay_eq era h, toDay_ofYearDay era h]

/-- The date of a day exists in the calendar, if only its year is in range. -/
theorem isValid_ofDay (day : Int) : (ofDay day).isValid = yearInRange (ofDay day).year := by
  obtain ⟨era, century, group, year, dayOfYear, h, rfl⟩ := exists_era day
  rw [ofDay_eq era h]
  obtain ⟨hcentury, hgroup, hyear, hday, hadditional⟩ := h
  have hleap : dayOfYear = 365 →
      isLeapYear (era * 400 + (100 * century + 4 * group + year : Nat) + 1) = true := by
    intro hlast
    obtain ⟨rfl, hthree⟩ := hadditional hlast
    simp only [isLeapYear, Bool.and_eq_true, Bool.or_eq_true, decide_eq_true_eq]
    omega
  generalize era * 400 + (100 * century + 4 * group + year : Nat) = marchYear at hleap ⊢
  have hmonth : 1 ≤ (ofYearDay marchYear dayOfYear).month ∧
      (ofYearDay marchYear dayOfYear).month ≤ 12 := calendarMonth_mem (monthOf_lt hday)
  have hpos : 1 ≤ (ofYearDay marchYear dayOfYear).day := Nat.le_add_left 1 _
  have hlength := day_le_monthLength hday hleap
  simp [isValid, hmonth, hpos, hlength]

/-! ## The day of a date -/

/-- A year has its place in an era, and may end with the additional day if the year of
the next February is a leap year. -/
theorem exists_isYearDay_of_leap {marchYear : Int} {dayOfYear : Nat} (hday : dayOfYear ≤ 365)
    (hleap : dayOfYear = 365 → isLeapYear (marchYear + 1) = true) :
    ∃ era : Int, ∃ century group year, IsYearDay century group year dayOfYear ∧
      marchYear = era * 400 + (100 * century + 4 * group + year : Nat) := by
  generalize hyear : (marchYear % 400).toNat = year
  refine ⟨marchYear / 400, year / 100, year % 100 / 4, year % 4,
    ⟨by omega, by omega, by omega, hday, ?_⟩, by omega⟩
  intro hlast
  have h := hleap hlast
  simp only [isLeapYear, Bool.and_eq_true, Bool.or_eq_true, decide_eq_true_eq] at h
  omega

theorem exists_ofYearDay {date : Date} (h : date.isValid = true) :
    ∃ era : Int, ∃ century group year dayOfYear, IsYearDay century group year dayOfYear ∧
      date = ofYearDay (era * 400 + (100 * century + 4 * group + year : Nat)) dayOfYear := by
  obtain ⟨year, month, day⟩ := date
  simp only [isValid, Bool.and_eq_true, decide_eq_true_eq] at h
  obtain ⟨⟨⟨⟨-, hpos⟩, hle⟩, hday⟩, hlength⟩ := h
  have hback := calendarMonth_add hpos hle
  have hmonth : (month + 9) % 12 < 12 := Nat.mod_lt _ (by decide)
  generalize (month + 9) % 12 = marchMonth at hback hmonth
  subst hback
  obtain ⟨hmonthOf, hdays, hlast⟩ := monthOf_add hmonth (Nat.sub_one_lt_of_le hday hlength)
  generalize hmarch : year - (if calendarMonth marchMonth ≤ 2 then 1 else 0) = marchYear
  have hleap : daysBefore marchMonth + (day - 1) = 365 → isLeapYear (marchYear + 1) = true := by
    intro heq
    obtain ⟨rfl, hleap⟩ := hlast heq
    have hnext : marchYear + 1 = year := by
      rw [← hmarch]
      exact Int.sub_add_cancel year 1
    rw [hnext, hleap]
  obtain ⟨era, century, group, place, hyearDay, rfl⟩ := exists_isYearDay_of_leap hdays hleap
  refine ⟨era, century, group, place, _, hyearDay, ?_⟩
  rw [ofYearDay, hmonthOf, Nat.add_sub_cancel_left, ofMonth, ← hmarch, Int.sub_add_cancel,
    Nat.sub_add_cancel hday]

/-- A date of the calendar is the date of its day. -/
theorem ofDay_toDay {date : Date} (h : date.isValid = true) : ofDay date.toDay = date := by
  obtain ⟨era, century, group, year, dayOfYear, hyear, rfl⟩ := exists_ofYearDay h
  rw [toDay_ofYearDay era hyear, ofDay_eq era hyear]

end Date

end RuleMachine
