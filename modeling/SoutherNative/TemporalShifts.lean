import Mathlib
import SoutherNative.Temporals
import SoutherNative.Checked

set_option autoImplicit false

/-!
# The arithmetic of the library's runtime on dates

The runtime's calendar with every sum, difference and product one of 64 bits, and the shifts of a
date by days, by months and by years and of a date and time by minutes, by hours and by days. A
shift that names no day is told apart from one that names another.
-/
namespace SoutherNative.Temporals.Machine

open Calendar Checked

/-- `days_from_civil`, none where a number in it overflows. -/
def daysFromCivil (year month day : ℤ) : Option ℤ := do
  let year ← i64 (if month ≤ 2 then year - 1 else year)
  let era ← i64 (year / 400)
  let eraYears ← i64 (era * 400)
  let yearOfEra ← i64 (year - eraYears)
  let monthFromMarch ← i64 (if month > 2 then month - 3 else month + 9)
  let months ← i64 (153 * monthFromMarch)
  let months ← i64 (months + 2)
  let dayOfYear ← i64 (months.tdiv 5 + day)
  let dayOfYear ← i64 (dayOfYear - 1)
  let years ← i64 (yearOfEra * 365)
  let years ← i64 (years + yearOfEra.tdiv 4)
  let years ← i64 (years - yearOfEra.tdiv 100)
  let dayOfEra ← i64 (years + dayOfYear)
  let eraDays ← i64 (era * 146097)
  let days ← i64 (eraDays + dayOfEra)
  i64 (days - 719468)

/-- `civil_from_days`, none where a number in it overflows. -/
def civilFromDays (days : ℤ) : Option (ℤ × ℤ × ℤ) := do
  let days ← i64 (days + 719468)
  let era ← i64 (days / 146097)
  let eraDays ← i64 (era * 146097)
  let dayOfEra ← i64 (days - eraDays)
  let years ← i64 (dayOfEra - dayOfEra.tdiv 1460)
  let years ← i64 (years + dayOfEra.tdiv 36524)
  let years ← i64 (years - dayOfEra.tdiv 146096)
  let yearOfEra ← i64 (years.tdiv 365)
  let before ← i64 (365 * yearOfEra)
  let before ← i64 (before + yearOfEra.tdiv 4)
  let before ← i64 (before - yearOfEra.tdiv 100)
  let dayOfYear ← i64 (dayOfEra - before)
  let months ← i64 (5 * dayOfYear)
  let months ← i64 (months + 2)
  let monthFromMarch ← i64 (months.tdiv 153)
  let gone ← i64 (153 * monthFromMarch)
  let gone ← i64 (gone + 2)
  let day ← i64 (dayOfYear - gone.tdiv 5)
  let day ← i64 (day + 1)
  let month ← i64 (if monthFromMarch < 10 then monthFromMarch + 3 else monthFromMarch - 9)
  let eraYears ← i64 (era * 400)
  let year ← i64 (yearOfEra + eraYears)
  let year ← i64 (if month ≤ 2 then year + 1 else year)
  return (year, month, day)

theorem daysFromCivil_of {year month day : ℤ} (hyear : -1000000000 ≤ year ∧ year ≤ 1000000000)
    (hmonth : 1 ≤ month ∧ month ≤ 12) (hday : 1 ≤ day ∧ day ≤ 31) :
    daysFromCivil year month day = some (Library.daysFromCivil year month day) := by
  rw [daysFromCivil, Library.daysFromCivil]
  have hfrom : -1000000001 ≤ (if month ≤ 2 then year - 1 else year) ∧
      (if month ≤ 2 then year - 1 else year) ≤ 1000000000 := by split_ifs <;> omega
  have hsince : 0 ≤ (if month > 2 then month - 3 else month + 9) ∧
      (if month > 2 then month - 3 else month + 9) ≤ 11 := by split_ifs <;> omega
  generalize (if month ≤ 2 then year - 1 else year) = year at hfrom
  generalize (if month > 2 then month - 3 else month + 9) = since at hsince
  have hera : -2500001 ≤ year / 400 ∧ year / 400 ≤ 2500000 := by omega
  have hofEra : 0 ≤ year - year / 400 * 400 ∧ year - year / 400 * 400 ≤ 399 := by omega
  have hfour : 0 ≤ (year - year / 400 * 400).tdiv 4 ∧ (year - year / 400 * 400).tdiv 4 ≤ 99 := by
    rw [Int.tdiv_eq_ediv_of_nonneg hofEra.1]
    omega
  have hhundred : 0 ≤ (year - year / 400 * 400).tdiv 100 ∧
      (year - year / 400 * 400).tdiv 100 ≤ 3 := by
    rw [Int.tdiv_eq_ediv_of_nonneg hofEra.1]
    omega
  have hmonths : 0 ≤ (153 * since + 2).tdiv 5 ∧ (153 * since + 2).tdiv 5 ≤ 337 := by
    rw [Int.tdiv_eq_ediv_of_nonneg (by omega)]
    omega
  rw [i64_bind (by omega), i64_bind (by omega), i64_bind (by omega), i64_bind (by omega)]
  generalize (year - year / 400 * 400).tdiv 4 = four at *
  generalize (year - year / 400 * 400).tdiv 100 = hundred at *
  generalize year - year / 400 * 400 = ofEra at *
  generalize year / 400 = era at *
  rw [i64_bind (by omega), i64_bind (by omega), i64_bind (by omega)]
  generalize (153 * since + 2).tdiv 5 = months at *
  rw [i64_bind (by omega), i64_bind (by omega), i64_bind (by omega), i64_bind (by omega),
    i64_bind (by omega), i64_bind (by omega), i64_bind (by omega), i64_bind (by omega),
    i64_of (by omega)]

theorem civilFromDays_of {days : ℤ} (hdays : -400000000000 ≤ days ∧ days ≤ 400000000000) :
    civilFromDays days = some (Library.civilFromDays days) := by
  rw [civilFromDays, Library.civilFromDays, i64_bind (by omega)]
  generalize hsince : days + 719468 = since
  have hera : -2738000 ≤ since / 146097 ∧ since / 146097 ≤ 2738000 := by omega
  have hofEra : 0 ≤ since - since / 146097 * 146097 ∧
      since - since / 146097 * 146097 < 146097 := by omega
  rw [i64_bind (by omega), i64_bind (by omega), i64_bind (by omega)]
  obtain ⟨century, cycle, year, dayOfYear, hplaced⟩ := placed_exists hofEra
  generalize since - since / 146097 * 146097 = dayOfEra at *
  generalize since / 146097 = era at *
  have hcycles : 0 ≤ dayOfEra.tdiv 1460 ∧ dayOfEra.tdiv 1460 ≤ 100 := by
    rw [Int.tdiv_eq_ediv_of_nonneg hofEra.1]
    omega
  have hcenturies : 0 ≤ dayOfEra.tdiv 36524 ∧ dayOfEra.tdiv 36524 ≤ 4 := by
    rw [Int.tdiv_eq_ediv_of_nonneg hofEra.1]
    omega
  have hlast : 0 ≤ dayOfEra.tdiv 146096 ∧ dayOfEra.tdiv 146096 ≤ 1 := by
    rw [Int.tdiv_eq_ediv_of_nonneg hofEra.1]
    omega
  have hyears : (dayOfEra - dayOfEra.tdiv 1460 + dayOfEra.tdiv 36524 -
      dayOfEra.tdiv 146096).tdiv 365 = 100 * century + 4 * cycle + year := by
    have hnonneg : 0 ≤ dayOfEra - dayOfEra / 1460 + dayOfEra / 36524 - dayOfEra / 146096 := by omega
    simp only [Int.tdiv_eq_ediv_of_nonneg hofEra.1, Int.tdiv_eq_ediv_of_nonneg hnonneg]
    exact hplaced.yearOfEra
  rw [i64_bind (by omega), i64_bind (by omega), i64_bind (by omega), hyears]
  obtain ⟨hcentury, hcycle, hyear, hday, -, hstands⟩ := hplaced
  obtain ⟨hfour, hhundred⟩ := @leaps_of century cycle year hcycle hyear
  have hyearOfEra : 0 ≤ 100 * century + 4 * cycle + year ∧
      100 * century + 4 * cycle + year ≤ 399 := by omega
  rw [← Int.tdiv_eq_ediv_of_nonneg hyearOfEra.1] at hfour hhundred
  have hplace : dayOfEra - (365 * (100 * century + 4 * cycle + year) + (25 * century + cycle) -
      century) = dayOfYear := by linarith
  rw [i64_bind (by omega), i64_bind (by omega), i64_bind (by omega), i64_bind (by omega), hfour,
    hhundred, i64_bind (by omega), hplace]
  generalize 100 * century + 4 * cycle + year = yearOfEra at *
  clear hstands hplace hfour hhundred hyears
  have hmonths : 0 ≤ (5 * dayOfYear + 2).tdiv 153 ∧ (5 * dayOfYear + 2).tdiv 153 ≤ 11 := by
    rw [Int.tdiv_eq_ediv_of_nonneg (by omega)]
    omega
  rw [i64_bind (by omega), i64_bind (by omega), i64_bind (by omega)]
  generalize (5 * dayOfYear + 2).tdiv 153 = months at *
  have hgone : 0 ≤ (153 * months + 2).tdiv 5 ∧ (153 * months + 2).tdiv 5 ≤ 337 := by
    rw [Int.tdiv_eq_ediv_of_nonneg (by omega)]
    omega
  rw [i64_bind (by omega), i64_bind (by omega)]
  generalize (153 * months + 2).tdiv 5 = gone at *
  have hmonth : 1 ≤ (if months < 10 then months + 3 else months - 9) ∧
      (if months < 10 then months + 3 else months - 9) ≤ 12 := by split_ifs <;> omega
  rw [i64_bind (by omega), i64_bind (by omega), i64_bind (by omega)]
  generalize (if months < 10 then months + 3 else months - 9) = month at *
  rw [i64_bind (by omega), i64_bind (by omega)]
  have hyear' : -9223372036854775808 ≤ (if month ≤ 2 then yearOfEra + era * 400 + 1
      else yearOfEra + era * 400) ∧ (if month ≤ 2 then yearOfEra + era * 400 + 1
      else yearOfEra + era * 400) < 9223372036854775808 := by split_ifs <;> omega
  rw [i64_bind hyear']
  rfl

def MIN_DAY : ℤ := Library.daysFromCivil MIN_YEAR 1 1

def MAX_DAY : ℤ := Library.daysFromCivil MAX_YEAR 12 31

theorem MIN_DAY_eq : MIN_DAY = -365243219162 := by decide

theorem MAX_DAY_eq : MAX_DAY = 365241780471 := by decide

/-- A `Date` the runtime holds: a day from 1970-01-01. -/
@[ext]
structure Day where
  day : ℤ
  min : MIN_DAY ≤ day
  max : day ≤ MAX_DAY

/-- What `civil_day` takes. -/
structure Civil where
  year : ℤ
  month : ℤ
  date : ℤ
  year_bounds : MIN_YEAR ≤ year ∧ year ≤ MAX_YEAR
  month_bounds : 1 ≤ month ∧ month ≤ 12
  date_bounds : 1 ≤ date ∧ date ≤ Library.monthLength year month

def Civil.numbers (civil : Civil) : ℤ × ℤ × ℤ := (civil.year, civil.month, civil.date)

theorem Civil.isDay (civil : Civil) : IsDay civil.year civil.month civil.date := by
  have hlength := @library_monthLength civil.year civil.month civil.month_bounds
  have hdate := civil.date_bounds
  rw [hlength] at hdate
  exact ⟨civil.month_bounds.1, civil.month_bounds.2, hdate.1, hdate.2⟩

theorem Day.bounds (day : Day) : -400000000000 ≤ day.day ∧ day.day ≤ 400000000000 := by
  have hmin := day.min
  have hmax := day.max
  rw [MIN_DAY_eq] at hmin
  rw [MAX_DAY_eq] at hmax
  omega

theorem Civil.daysFromCivil (civil : Civil) :
    Machine.daysFromCivil civil.year civil.month civil.date =
      some (count civil.year civil.month civil.date) := by
  have hyear := civil.year_bounds
  rw [MIN_YEAR, MAX_YEAR] at hyear
  have hday := civil.isDay.day_bounds.1
  rw [daysFromCivil_of ⟨by omega, by omega⟩ civil.month_bounds ⟨civil.date_bounds.1, hday⟩,
    library_daysFromCivil _ civil.month_bounds.1]

theorem Day.civilFromDays (day : Day) : Machine.civilFromDays day.day = some (civil day.day) := by
  rw [civilFromDays_of day.bounds, library_civilFromDays]

theorem MIN_DAY_count : MIN_DAY = count MIN_YEAR 1 1 := library_daysFromCivil 1 (by decide)

theorem MAX_DAY_count : MAX_DAY = count MAX_YEAR 12 31 := library_daysFromCivil 31 (by decide)

theorem count_bounds {year month day : ℤ} (h : IsDay year month day) :
    (MIN_DAY ≤ count year month day ∧ count year month day ≤ MAX_DAY) ↔
      MIN_YEAR ≤ year ∧ year ≤ MAX_YEAR := by
  rw [MIN_DAY_count, MAX_DAY_count]
  constructor
  · rintro ⟨hmin, hmax⟩
    exact ⟨year_of_first h hmin, year_of_last h hmax⟩
  · rintro ⟨hmin, hmax⟩
    have hfirst : IsDay MIN_YEAR 1 1 := ⟨by decide, by decide, by decide, by decide⟩
    have hlast : IsDay MAX_YEAR 12 31 := ⟨by decide, by decide, by decide, by decide⟩
    have hpos := h.month_pos
    have hle := h.month_le
    have hday := h.day_pos
    have h31 := h.day_bounds.1
    constructor
    · by_contra hnot
      have hlt := (count_lt_iff h hfirst).mp (not_le.mp hnot)
      simp only [Earlier] at hlt
      omega
    · by_contra hnot
      have hlt := (count_lt_iff hlast h).mp (not_le.mp hnot)
      simp only [Earlier] at hlt
      omega

def Civil.day (civil : Civil) : Day where
  day := count civil.year civil.month civil.date
  min := ((count_bounds civil.isDay).mpr civil.year_bounds).1
  max := ((count_bounds civil.isDay).mpr civil.year_bounds).2

def Day.civil (day : Day) : Civil where
  year := (Calendar.civil day.day).1
  month := (Calendar.civil day.day).2.1
  date := (Calendar.civil day.day).2.2
  year_bounds := by
    obtain ⟨hday, hcount⟩ := civil_spec day.day
    apply (count_bounds hday).mp
    rw [hcount]
    exact ⟨day.min, day.max⟩
  month_bounds := ⟨(civil_spec day.day).1.month_pos, (civil_spec day.day).1.month_le⟩
  date_bounds := by
    obtain ⟨hday, -⟩ := civil_spec day.day
    rw [library_monthLength ⟨hday.month_pos, hday.month_le⟩]
    exact ⟨hday.day_pos, hday.day_le⟩

theorem Day.count_civil (day : Day) :
    count day.civil.year day.civil.month day.civil.date = day.day := (civil_spec day.day).2

theorem Civil.civil_day (civil : Civil) :
    Calendar.civil (count civil.year civil.month civil.date) = civil.numbers :=
  civil_count civil.isDay

/-- The runtime's two functions are one count of the calendar's days: each undoes the other over all
a `Date` holds, the count grows as the calendar does and by one from a day to the next, and no
number in either is past 64 bits. -/
theorem days_are_the_calendars :
    (∀ day : Day, ∃ civil : Civil, civilFromDays day.day = some civil.numbers ∧
      daysFromCivil civil.year civil.month civil.date = some day.day) ∧
    (∀ civil : Civil, ∃ day : Day,
      daysFromCivil civil.year civil.month civil.date = some day.day ∧
      civilFromDays day.day = some civil.numbers) ∧
    ∀ one other : Civil, ∃ day day' : Day,
      daysFromCivil one.year one.month one.date = some day.day ∧
      daysFromCivil other.year other.month other.date = some day'.day ∧
      (day.day < day'.day ↔ Earlier one.numbers other.numbers) ∧
      (day'.day = day.day + 1 ↔ other.numbers = next one.year one.month one.date) := by
  refine ⟨?_, ?_, ?_⟩
  · intro day
    refine ⟨day.civil, day.civilFromDays, ?_⟩
    rw [day.civil.daysFromCivil, day.count_civil]
  · intro civil
    refine ⟨civil.day, civil.daysFromCivil, ?_⟩
    rw [civil.day.civilFromDays, Civil.day, civil.civil_day]
  · intro one other
    refine ⟨one.day, other.day, one.daysFromCivil, other.daysFromCivil,
      count_lt_iff one.isDay other.isDay, ?_⟩
    have hnext := count_next one.isDay
    simp only [Civil.day]
    constructor
    · intro h
      rw [← other.civil_day, h, ← hnext, civil_count (next_isDay one.isDay)]
    · intro h
      rw [← hnext, ← h]
      rfl

def MIN_LOCAL : ℤ := MIN_DAY * SECONDS_PER_DAY

def MAX_LOCAL : ℤ := MAX_DAY * SECONDS_PER_DAY + SECONDS_PER_DAY - 1

/-- A `DateTime` the runtime holds: a second from the start of 1970-01-01. -/
@[ext]
structure Local where
  second : ℤ
  min : MIN_LOCAL ≤ second
  max : second ≤ MAX_LOCAL

/-- `souther_date_add_days`: none where it answers that there is no such day. -/
def dateAddDays (days day : ℤ) : Option ℤ :=
  (i64 (day + days)).filter (fun it => MIN_DAY ≤ it ∧ it ≤ MAX_DAY)

/-- `souther_date_add_months`: what it answers, and nothing at all where a sum it does not check
overflows. -/
def dateAddMonths (months day : ℤ) : Option (Option ℤ) := do
  let (year, month, date) ← civilFromDays day
  let counted ← i64 (year * 12)
  let counted ← i64 (counted + month)
  let counted ← i64 (counted - 1)
  match i64 (counted + months) with
  | none => return none
  | some counted =>
    let year := counted / 12
    let month ← i64 (counted % 12 + 1)
    if MIN_YEAR ≤ year ∧ year ≤ MAX_YEAR then
      some <$> daysFromCivil year month (min date (Library.monthLength year month))
    else return none

/-- `souther_date_add_years`, as `dateAddMonths`. -/
def dateAddYears (years day : ℤ) : Option (Option ℤ) := do
  let (year, month, date) ← civilFromDays day
  match (i64 (year + years)).filter (fun it => MIN_YEAR ≤ it ∧ it ≤ MAX_YEAR) with
  | none => return none
  | some year => some <$> daysFromCivil year month (min date (Library.monthLength year month))

/-- A `DateTime` so many units of so many seconds later. -/
def shifted (unit count second : ℤ) : Option ℤ :=
  ((i64 (count * unit)).bind fun seconds => i64 (second + seconds)).filter
    (fun it => MIN_LOCAL ≤ it ∧ it ≤ MAX_LOCAL)

def datetimeAddMinutes (minutes second : ℤ) : Option ℤ := shifted 60 minutes second

def datetimeAddHours (hours second : ℤ) : Option ℤ := shifted 3600 hours second

def datetimeAddDays (days second : ℤ) : Option ℤ := shifted SECONDS_PER_DAY days second

theorem MIN_LOCAL_eq : MIN_LOCAL = -31557014135596800 := by decide

theorem MAX_LOCAL_eq : MAX_LOCAL = 31556889832780799 := by decide

def clamped (day : Day) (year month : ℤ) : ℤ := min day.civil.date (Library.monthLength year month)

/-- What a shift of a day to a year and a month answers: nothing where no `Date` is in that year,
and the day of that month else that is the day's date or the month's last. -/
def Lands (day : Day) (year month : ℤ) (answer : Option ℤ) : Prop :=
  (answer = none ↔ ¬(MIN_YEAR ≤ year ∧ year ≤ MAX_YEAR)) ∧
    ∀ shifted, answer = some shifted →
      ∃ held : Day, held.day = shifted ∧ held.civil.numbers = (year, month, clamped day year month)

def Day.moved (day : Day) {year month : ℤ} (hyear : MIN_YEAR ≤ year ∧ year ≤ MAX_YEAR)
    (hmonth : 1 ≤ month ∧ month ≤ 12) : Civil where
  year := year
  month := month
  date := clamped day year month
  year_bounds := hyear
  month_bounds := hmonth
  date_bounds := by
    have hlength := length_bounds year month
    rw [← library_monthLength hmonth] at hlength
    exact ⟨le_min day.civil.date_bounds.1 (by omega), min_le_right _ _⟩

theorem Civil.day_civil (civil : Civil) : civil.day.civil.numbers = civil.numbers := civil.civil_day

theorem lands_of (day : Day) {year month : ℤ} (hmonth : 1 ≤ month ∧ month ≤ 12) :
    ∃ answer, (if MIN_YEAR ≤ year ∧ year ≤ MAX_YEAR then
        some <$> daysFromCivil year month (clamped day year month)
      else some none) = some answer ∧ Lands day year month answer := by
  split_ifs with hyear
  · have hcount : daysFromCivil year month (clamped day year month) =
        some (day.moved hyear hmonth).day.day := (day.moved hyear hmonth).daysFromCivil
    refine ⟨some (day.moved hyear hmonth).day.day, ?_, ?_, ?_⟩
    · rw [hcount, Option.map_eq_map, Option.map_some]
    · simp [hyear]
    · intro shifted hshifted
      exact ⟨(day.moved hyear hmonth).day, Option.some_inj.mp hshifted, Civil.day_civil _⟩
  · exact ⟨none, rfl, by simp [hyear], by simp⟩

def Day.months (day : Day) : ℤ := day.civil.year * 12 + day.civil.month - 1

theorem Day.months_bounds (day : Day) :
    -12000000000 ≤ day.months ∧ day.months ≤ 12000000000 := by
  have hyear := day.civil.year_bounds
  have hmonth := day.civil.month_bounds
  rw [MIN_YEAR, MAX_YEAR] at hyear
  rw [Day.months]
  omega

theorem Day.civilFromDays_numbers (day : Day) :
    Machine.civilFromDays day.day = some day.civil.numbers := day.civilFromDays

theorem dateAddMonths_eq (day : Day) (months : ℤ) :
    dateAddMonths months day.day =
      if MIN_YEAR ≤ (day.months + months) / 12 ∧ (day.months + months) / 12 ≤ MAX_YEAR then
        some <$> daysFromCivil ((day.months + months) / 12) ((day.months + months) % 12 + 1)
          (clamped day ((day.months + months) / 12) ((day.months + months) % 12 + 1))
      else some none := by
  have hbounds := day.months_bounds
  have hmonth := day.civil.month_bounds
  rw [dateAddMonths, day.civilFromDays_numbers]
  simp only [Civil.numbers, Option.bind_eq_bind, Option.bind_some]
  rw [Day.months] at *
  have hmachine {n : ℤ} {next : ℤ → Option (Option ℤ)}
      (h : -9223372036854775808 ≤ n ∧ n < 9223372036854775808) : (i64 n).bind next = next n :=
    i64_bind h
  rw [hmachine (by omega), hmachine (by omega), hmachine (by omega), i64]
  by_cases hfits : -9223372036854775808 ≤ day.civil.year * 12 + day.civil.month - 1 + months ∧
      day.civil.year * 12 + day.civil.month - 1 + months < 9223372036854775808
  · rw [if_pos hfits]
    dsimp only
    rw [hmachine (by omega)]
    rfl
  · rw [if_neg hfits, if_neg]
    · rfl
    · rw [MIN_YEAR, MAX_YEAR]
      omega

theorem dateAddYears_eq (day : Day) (years : ℤ) :
    dateAddYears years day.day =
      if MIN_YEAR ≤ day.civil.year + years ∧ day.civil.year + years ≤ MAX_YEAR then
        some <$> daysFromCivil (day.civil.year + years) day.civil.month
          (clamped day (day.civil.year + years) day.civil.month)
      else some none := by
  rw [dateAddYears, day.civilFromDays_numbers]
  simp only [Civil.numbers, Option.bind_eq_bind, Option.bind_some]
  rw [i64_filter (by decide) (by decide)]
  split_ifs <;> rfl

theorem shifted_eq (unit count : ℤ) (second : Local) :
    shifted unit count second.second =
      if MIN_LOCAL ≤ second.second + count * unit ∧ second.second + count * unit ≤ MAX_LOCAL then
        some (second.second + count * unit)
      else none := by
  have hmin := second.min
  have hmax := second.max
  rw [shifted, MIN_LOCAL_eq, MAX_LOCAL_eq] at *
  by_cases hfits : -9223372036854775808 ≤ count * unit ∧ count * unit < 9223372036854775808
  · rw [i64_of hfits, Option.bind_some, i64_filter (by decide) (by decide)]
  · rw [i64, if_neg hfits, if_neg (by omega)]
    rfl

/-- No overflow of the runtime's is ever taken for an answer, or an answer for one: a shift answers
exactly where the shift of unbounded numbers is one the type holds, and then answers that. -/
theorem shifts_are_exact :
    (∀ (day : Day) (days : Int64), dateAddDays days.toInt day.day =
      if MIN_DAY ≤ day.day + days.toInt ∧ day.day + days.toInt ≤ MAX_DAY then
        some (day.day + days.toInt)
      else none) ∧
    (∀ (day : Day) (months : Int64), ∃ answer year month,
      dateAddMonths months.toInt day.day = some answer ∧ (1 ≤ month ∧ month ≤ 12) ∧
      year * 12 + month = day.civil.year * 12 + day.civil.month + months.toInt ∧
      Lands day year month answer) ∧
    (∀ (day : Day) (years : Int64), ∃ answer, dateAddYears years.toInt day.day = some answer ∧
      Lands day (day.civil.year + years.toInt) day.civil.month answer) ∧
    (∀ (day : Day) (years months : Int64), months.toInt = 12 * years.toInt →
      dateAddYears years.toInt day.day = dateAddMonths months.toInt day.day) ∧
    ∀ (second : Local) (count : Int64),
      datetimeAddMinutes count.toInt second.second =
        (if MIN_LOCAL ≤ second.second + count.toInt * 60 ∧
            second.second + count.toInt * 60 ≤ MAX_LOCAL then
          some (second.second + count.toInt * 60)
        else none) ∧
      datetimeAddHours count.toInt second.second =
        (if MIN_LOCAL ≤ second.second + count.toInt * 3600 ∧
            second.second + count.toInt * 3600 ≤ MAX_LOCAL then
          some (second.second + count.toInt * 3600)
        else none) ∧
      datetimeAddDays count.toInt second.second =
        (if MIN_LOCAL ≤ second.second + count.toInt * 86400 ∧
            second.second + count.toInt * 86400 ≤ MAX_LOCAL then
          some (second.second + count.toInt * 86400)
        else none) := by
  refine ⟨?_, ?_, ?_, ?_, ?_⟩
  · intro day days
    exact i64_filter (by decide) (by decide)
  · intro day months
    have hmonth : 1 ≤ (day.months + months.toInt) % 12 + 1 ∧
        (day.months + months.toInt) % 12 + 1 ≤ 12 := by omega
    obtain ⟨answer, hanswer, hlands⟩ :=
      @lands_of day ((day.months + months.toInt) / 12) _ hmonth
    refine ⟨answer, _, _, ?_, hmonth, ?_, hlands⟩
    · rw [dateAddMonths_eq, hanswer]
    · rw [Day.months]
      omega
  · intro day years
    obtain ⟨answer, hanswer, hlands⟩ :=
      @lands_of day (day.civil.year + years.toInt) _ day.civil.month_bounds
    exact ⟨answer, by rw [dateAddYears_eq, hanswer], hlands⟩
  · intro day years months hmonths
    have hmonth := day.civil.month_bounds
    have hyear : (day.months + months.toInt) / 12 = day.civil.year + years.toInt := by
      rw [Day.months]
      omega
    have hrest : (day.months + months.toInt) % 12 + 1 = day.civil.month := by
      rw [Day.months]
      omega
    rw [dateAddYears_eq, dateAddMonths_eq, hyear, hrest]
  · intro second count
    exact ⟨shifted_eq 60 _ second, shifted_eq 3600 _ second, shifted_eq 86400 _ second⟩

/-- A year from the twenty-ninth of February is the twenty-eighth of the next, and so are twelve
months. -/
theorem leap_day_shifts : dateAddYears 1 19782 = some (some 20147) ∧
    dateAddYears 1 19782 = dateAddMonths 12 19782 :=
  ⟨by decide, shifts_are_exact.2.2.2.1 ⟨19782, by decide, by decide⟩ 1 12 (by decide)⟩

end SoutherNative.Temporals.Machine
