import Mathlib
import SoutherNative.Calendar

set_option autoImplicit false

/-!
# Dates, times and instants as four runtimes hold them

The library's runtime keeps a date as a count of days and makes one of the year, the month and the
day a host hands it. The Rust, the Go and the PHP runtime each hold those numbers, check them with a
calendar of their own and write them as text of their own.
-/
namespace SoutherNative.Temporals

open Calendar

abbrev Text := List Char

/-- `{:0width}` as Rust writes a number, `%0widthd` as Go and PHP do: a sign counts to the width. -/
def padded (width : ℕ) (n : ℤ) : Text :=
  let digits := Nat.toDigits 10 n.natAbs
  if n < 0 then '-' :: (List.replicate (width - 1 - digits.length) '0' ++ digits)
  else List.replicate (width - digits.length) '0' ++ digits

def MIN_YEAR : ℤ := -999999999

def MAX_YEAR : ℤ := 999999999

def SECONDS_PER_DAY : ℤ := 86400

/-- A date in the years a `Date` holds, by its numbers, as Rust and Go hold one. -/
structure Date where
  year : Int32
  month : UInt8
  day : UInt8
  deriving DecidableEq

structure Time where
  hour : UInt8
  minute : UInt8
  second : UInt8
  deriving DecidableEq

structure DateTime where
  date : Date
  time : Time
  deriving DecidableEq

structure Instant where
  second : Int64
  nano : UInt32
  deriving DecidableEq

def Date.numbers (date : Date) : ℤ × ℤ × ℤ := (date.year.toInt, date.month.toNat, date.day.toNat)

def Time.numbers (time : Time) : ℤ × ℤ × ℤ := (time.hour.toNat, time.minute.toNat, time.second.toNat)

def Instant.numbers (moment : Instant) : ℤ × ℤ := (moment.second.toInt, moment.nano.toNat)

namespace Library

/-- Rust's `/` is what `tdiv` is, and `div_euclid` and `rem_euclid` are `/` and `%`. -/
def daysFromCivil (year month day : ℤ) : ℤ :=
  let year := if month ≤ 2 then year - 1 else year
  let era := year / 400
  let yearOfEra := year - era * 400
  let monthFromMarch := if month > 2 then month - 3 else month + 9
  let dayOfYear := (153 * monthFromMarch + 2).tdiv 5 + day - 1
  let dayOfEra := yearOfEra * 365 + yearOfEra.tdiv 4 - yearOfEra.tdiv 100 + dayOfYear
  era * 146097 + dayOfEra - 719468

def civilFromDays (days : ℤ) : ℤ × ℤ × ℤ :=
  let days := days + 719468
  let era := days / 146097
  let dayOfEra := days - era * 146097
  let yearOfEra := (dayOfEra - dayOfEra.tdiv 1460 + dayOfEra.tdiv 36524 -
    dayOfEra.tdiv 146096).tdiv 365
  let dayOfYear := dayOfEra - (365 * yearOfEra + yearOfEra.tdiv 4 - yearOfEra.tdiv 100)
  let monthFromMarch := (5 * dayOfYear + 2).tdiv 153
  let day := dayOfYear - (153 * monthFromMarch + 2).tdiv 5 + 1
  let month := if monthFromMarch < 10 then monthFromMarch + 3 else monthFromMarch - 9
  let year := yearOfEra + era * 400
  (if month ≤ 2 then year + 1 else year, month, day)

def isLeap (year : ℤ) : Bool := year % 4 == 0 && (year % 100 != 0 || year % 400 == 0)

def monthLength (year month : ℤ) : ℤ :=
  if month ∈ [1, 3, 5, 7, 8, 10, 12] then 31
  else if month ∈ [4, 6, 9, 11] then 30
  else if isLeap year then 29
  else 28

/-- `INSTANT_SECONDS`. -/
def instantSeconds (second : ℤ) : Bool :=
  -31557014167219200 ≤ second && second ≤ 31556889864403199

def civilDay (year month date : ℤ) : Option ℤ :=
  if (MIN_YEAR ≤ year ∧ year ≤ MAX_YEAR) ∧ (1 ≤ month ∧ month ≤ 12) ∧
      1 ≤ date ∧ date ≤ monthLength year month then
    some (daysFromCivil year month date)
  else none

def clockSecond (hour minute second : ℤ) : Option ℤ :=
  if (0 ≤ hour ∧ hour ≤ 23) ∧ (0 ≤ minute ∧ minute ≤ 59) ∧ 0 ≤ second ∧ second ≤ 59 then
    some (hour * 3600 + minute * 60 + second)
  else none

/-- `souther_datetime_of_parts`. -/
def datetimeOfParts (year month date hour minute second : ℤ) : Option ℤ := do
  let day ← civilDay year month date
  let ofDay ← clockSecond hour minute second
  return day * SECONDS_PER_DAY + ofDay

/-- `souther_instant_of_parts`. -/
def instantOfParts (second nano : ℤ) : Option (ℤ × ℤ) :=
  if instantSeconds second ∧ 0 ≤ nano ∧ nano < 1000000000 then some (second, nano) else none

def writeYear (year : ℤ) : Text :=
  (if year < 0 then ['-'] else if year > 9999 then ['+'] else []) ++ padded 4 |year|

def dateText (day : ℤ) : Text :=
  match civilFromDays day with
  | (year, month, day) => writeYear year ++ '-' :: padded 2 month ++ '-' :: padded 2 day

def timeText (secondOfDay : ℤ) : Text :=
  let hour := secondOfDay.tdiv 3600
  let minute := (secondOfDay.tmod 3600).tdiv 60
  let second := secondOfDay.tmod 60
  if second = 0 then padded 2 hour ++ ':' :: padded 2 minute
  else padded 2 hour ++ ':' :: padded 2 minute ++ ':' :: padded 2 second

def dateTimeText (second : ℤ) : Text :=
  dateText (second / SECONDS_PER_DAY) ++ 'T' :: timeText (second % SECONDS_PER_DAY)

def instantText (second nano : ℤ) : Text :=
  let ofDay := second % SECONDS_PER_DAY
  let written := dateText (second / SECONDS_PER_DAY) ++ 'T' :: padded 2 (ofDay.tdiv 3600) ++
    ':' :: padded 2 ((ofDay.tmod 3600).tdiv 60) ++ ':' :: padded 2 (ofDay.tmod 60)
  let fraction :=
    if nano ≠ 0 then
      if nano.tmod 1000000 = 0 then '.' :: padded 3 (nano.tdiv 1000000)
      else if nano.tmod 1000 = 0 then '.' :: padded 6 (nano.tdiv 1000)
      else '.' :: padded 9 nano
    else []
  written ++ fraction ++ ['Z']

end Library

namespace Rust

def daysFromCivil : ℤ → ℤ → ℤ → ℤ := Library.daysFromCivil

def civilFromDays : ℤ → ℤ × ℤ × ℤ := Library.civilFromDays

def monthLength : ℤ → ℤ → ℤ := Library.monthLength

def MIN_MOMENT : ℤ := daysFromCivil (-1000000000) 1 1 * SECONDS_PER_DAY

def MAX_MOMENT : ℤ := (daysFromCivil 1000000000 12 31 + 1) * SECONDS_PER_DAY - 1

def writeYear : ℤ → Text := Library.writeYear

def dateText (year month day : ℤ) : Text :=
  writeYear year ++ '-' :: padded 2 month ++ '-' :: padded 2 day

/-- `Date::new`. -/
def newDate (year : Int32) (month day : UInt8) : Option Date :=
  let y := year.toInt
  let m : ℤ := month.toNat
  let d : ℤ := day.toNat
  if ¬ (MIN_YEAR ≤ y ∧ y ≤ MAX_YEAR) ∨ ¬ (1 ≤ m ∧ m ≤ 12) ∨
      ¬ (1 ≤ d ∧ d ≤ monthLength y m) then none
  else some ⟨year, month, day⟩

/-- `Date::iso`. -/
def dateIso (date : Date) : Text := dateText date.year.toInt date.month.toNat date.day.toNat

/-- `Time::new`. -/
def newTime (hour minute second : UInt8) : Option Time :=
  if hour > 23 ∨ minute > 59 ∨ second > 59 then none else some ⟨hour, minute, second⟩

/-- `Time::iso`. -/
def timeIso (time : Time) : Text :=
  if time.second = 0 then padded 2 time.hour.toNat ++ ':' :: padded 2 time.minute.toNat
  else padded 2 time.hour.toNat ++ ':' :: padded 2 time.minute.toNat ++
    ':' :: padded 2 time.second.toNat

/-- `DateTime::iso`. -/
def dateTimeIso (at' : DateTime) : Text := dateIso at'.date ++ 'T' :: timeIso at'.time

/-- `Instant::new`. -/
def newInstant (second : Int64) (nano : UInt32) : Option Instant :=
  if nano ≥ 1000000000 ∨ ¬ (MIN_MOMENT ≤ second.toInt ∧ second.toInt ≤ MAX_MOMENT) then none
  else some ⟨second, nano⟩

/-- `Instant::iso`. -/
def instantIso (moment : Instant) : Text :=
  match civilFromDays (moment.second.toInt / SECONDS_PER_DAY) with
  | (year, month, day) =>
    let ofDay := moment.second.toInt % SECONDS_PER_DAY
    let written := dateText year month day ++ 'T' :: padded 2 (ofDay.tdiv 3600) ++
      ':' :: padded 2 ((ofDay.tmod 3600).tdiv 60) ++ ':' :: padded 2 (ofDay.tmod 60)
    let nano := moment.nano
    let fraction :=
      if nano ≠ 0 then
        if nano % 1000000 = 0 then '.' :: padded 3 (nano / 1000000).toNat
        else if nano % 1000 = 0 then '.' :: padded 6 (nano / 1000).toNat
        else '.' :: padded 9 nano.toNat
      else []
    written ++ fraction ++ ['Z']

end Rust

namespace Php

def MIN_MOMENT : ℤ := -31557014167219200

def MAX_MOMENT : ℤ := 31556889864403199

/-- `intdiv`, which truncates, brought down where it went up. -/
def floorDiv (a b : ℤ) : ℤ :=
  let quotient := a.tdiv b
  if a.tmod b ≠ 0 ∧ decide (a < 0) ≠ decide (b < 0) then quotient - 1 else quotient

def floorMod (a b : ℤ) : ℤ := a - floorDiv a b * b

def isLeap (year : ℤ) : Bool :=
  floorMod year 4 == 0 && (floorMod year 100 != 0 || floorMod year 400 == 0)

def monthLength (year month : ℤ) : ℤ :=
  if month ∈ [1, 3, 5, 7, 8, 10, 12] then 31
  else if month ∈ [4, 6, 9, 11] then 30
  else if isLeap year then 29
  else 28

def isDay (year month day : ℤ) : Bool :=
  year ≥ MIN_YEAR && year ≤ MAX_YEAR && month ≥ 1 && month ≤ 12 && day ≥ 1 &&
    day ≤ monthLength year month

def isTime (hour minute second : ℤ) : Bool :=
  hour ≥ 0 && hour ≤ 23 && minute ≥ 0 && minute ≤ 59 && second ≥ 0 && second ≤ 59

def isMoment (second nano : ℤ) : Bool :=
  nano ≥ 0 && nano < 1000000000 && second ≥ MIN_MOMENT && second ≤ MAX_MOMENT

def civilFromDays (days : ℤ) : ℤ × ℤ × ℤ :=
  let days := days + 719468
  let era := floorDiv days 146097
  let dayOfEra := days - era * 146097
  let yearOfEra := (dayOfEra - dayOfEra.tdiv 1460 + dayOfEra.tdiv 36524 -
    dayOfEra.tdiv 146096).tdiv 365
  let dayOfYear := dayOfEra - (365 * yearOfEra + yearOfEra.tdiv 4 - yearOfEra.tdiv 100)
  let monthFromMarch := (5 * dayOfYear + 2).tdiv 153
  let day := dayOfYear - (153 * monthFromMarch + 2).tdiv 5 + 1
  let month := if monthFromMarch < 10 then monthFromMarch + 3 else monthFromMarch - 9
  let year := yearOfEra + era * 400
  (if month ≤ 2 then year + 1 else year, month, day)

def dateText (year month day : ℤ) : Text :=
  (if year < 0 then ['-'] else if year > 9999 then ['+'] else []) ++ padded 4 |year| ++
    '-' :: padded 2 month ++ '-' :: padded 2 day

def timeText (hour minute second : ℤ) : Text :=
  if second = 0 then padded 2 hour ++ ':' :: padded 2 minute
  else padded 2 hour ++ ':' :: padded 2 minute ++ ':' :: padded 2 second

def instantText (second nano : ℤ) : Text :=
  match civilFromDays (floorDiv second SECONDS_PER_DAY) with
  | (year, month, day) =>
    let ofDay := floorMod second SECONDS_PER_DAY
    let written := dateText year month day ++ 'T' :: padded 2 (ofDay.tdiv 3600) ++
      ':' :: padded 2 ((ofDay.tmod 3600).tdiv 60) ++ ':' :: padded 2 (ofDay.tmod 60)
    let fraction :=
      if nano = 0 then []
      else if nano.tmod 1000000 = 0 then '.' :: padded 3 (nano.tdiv 1000000)
      else if nano.tmod 1000 = 0 then '.' :: padded 6 (nano.tdiv 1000)
      else '.' :: padded 9 nano
    written ++ fraction ++ ['Z']

end Php

theorem library_civilFromDays (days : ℤ) : Library.civilFromDays days = civil days := by
  have hin : 0 ≤ days + 719468 - (days + 719468) / 146097 * 146097 ∧
      days + 719468 - (days + 719468) / 146097 * 146097 < 146097 := by omega
  obtain ⟨century, cycle, year, dayOfYear, hplaced⟩ := placed_exists hin
  have hyear := hplaced.yearOfEra
  have hleaps := @leaps_of century cycle year hplaced.cycle_bounds hplaced.year_bounds
  have hstands := hplaced.stands
  have hday := hplaced.day_bounds.1
  have hnonneg : 0 ≤ 100 * century + 4 * cycle + year := by
    have hcentury := hplaced.century_bounds
    have hcycle := hplaced.cycle_bounds
    have hyears := hplaced.year_bounds
    omega
  simp only [Library.civilFromDays, civil, fromMarch]
  generalize days + 719468 - (days + 719468) / 146097 * 146097 = dayOfEra at *
  have hyears : 0 ≤ dayOfEra - dayOfEra / 1460 + dayOfEra / 36524 - dayOfEra / 146096 := by omega
  have hplace : dayOfEra - (365 * (100 * century + 4 * cycle + year) +
      (100 * century + 4 * cycle + year) / 4 - (100 * century + 4 * cycle + year) / 100) =
      dayOfYear := by
    rw [hleaps.1, hleaps.2]
    linarith
  simp only [Int.tdiv_eq_ediv_of_nonneg hin.1, Int.tdiv_eq_ediv_of_nonneg hyears, hyear,
    Int.tdiv_eq_ediv_of_nonneg hnonneg, hplace]
  have hmonth : (5 * dayOfYear + 2).tdiv 153 = (5 * dayOfYear + 2) / 153 :=
    Int.tdiv_eq_ediv_of_nonneg (by omega)
  have hdays : (153 * ((5 * dayOfYear + 2) / 153) + 2).tdiv 5 =
      (153 * ((5 * dayOfYear + 2) / 153) + 2) / 5 := Int.tdiv_eq_ediv_of_nonneg (by omega)
  rw [hmonth, hdays]

theorem library_daysFromCivil {year month : ℤ} (day : ℤ) (h : 1 ≤ month) :
    Library.daysFromCivil year month day = count year month day := by
  have hmonth : 0 ≤ 153 * (if month > 2 then month - 3 else month + 9) + 2 := by
    split_ifs <;> omega
  simp only [Library.daysFromCivil, count, Int.tdiv_eq_ediv_of_nonneg hmonth]
  generalize (if month ≤ 2 then year - 1 else year) = marchYear
  have hyear : 0 ≤ marchYear - marchYear / 400 * 400 := by omega
  simp only [Int.tdiv_eq_ediv_of_nonneg hyear]

theorem library_isLeap (year : ℤ) : Library.isLeap year = leap year := by
  rw [Library.isLeap, leap, Bool.eq_iff_iff]
  simp

/-- Each month is as long in the calendar as the table of a runtime has it. -/
theorem length_of_table {year month : ℤ} (h : 1 ≤ month ∧ month ≤ 12) :
    length year month = if month ∈ [1, 3, 5, 7, 8, 10, 12] then 31
      else if month ∈ [4, 6, 9, 11] then 30 else if leap year then 29 else 28 := by
  obtain ⟨hlow, hhigh⟩ := h
  rw [length]
  interval_cases month <;> rfl

theorem library_monthLength {year month : ℤ} (h : 1 ≤ month ∧ month ≤ 12) :
    Library.monthLength year month = length year month := by
  rw [length_of_table h, Library.monthLength, library_isLeap]

theorem php_floorDiv (a : ℤ) {b : ℤ} (h : 0 < b) : Php.floorDiv a b = a / b := by
  have hsign : b.sign = 1 := Int.sign_eq_one_of_pos h
  have hb : decide (b < 0) = false := decide_eq_false (by omega)
  simp only [Php.floorDiv, hb]
  by_cases hdvd : b ∣ a
  · have hmod : a.tmod b = 0 := Int.dvd_iff_tmod_eq_zero.mp hdvd
    rw [if_neg (fun h => h.1 hmod), Int.tdiv_eq_ediv, if_pos (.inr hdvd), add_zero]
  · have hmod : a.tmod b ≠ 0 := fun hzero => hdvd (Int.dvd_iff_tmod_eq_zero.mpr hzero)
    by_cases hneg : a < 0
    · have hinner : ¬ (0 ≤ a ∨ b ∣ a) := by
        rintro (hnonneg | hdvd')
        · omega
        · exact hdvd hdvd'
      rw [if_pos ⟨hmod, by simp [hneg]⟩, Int.tdiv_eq_ediv, if_neg hinner, hsign,
        add_sub_cancel_right]
    · rw [if_neg (fun h => h.2 (by simp [hneg])), Int.tdiv_eq_ediv, if_pos (.inl (by omega)),
        add_zero]

theorem php_floorMod (a : ℤ) {b : ℤ} (h : 0 < b) : Php.floorMod a b = a % b := by
  rw [Php.floorMod, php_floorDiv a h, mul_comm, Int.emod_def]

theorem php_civilFromDays (days : ℤ) : Php.civilFromDays days = civil days := by
  rw [← library_civilFromDays, Php.civilFromDays, php_floorDiv _ (by decide)]
  rfl

theorem php_isLeap (year : ℤ) : Php.isLeap year = leap year := by
  rw [Php.isLeap, php_floorMod _ (by decide), php_floorMod _ (by decide),
    php_floorMod _ (by decide), leap, Bool.eq_iff_iff]
  simp

theorem php_monthLength {year month : ℤ} (h : 1 ≤ month ∧ month ≤ 12) :
    Php.monthLength year month = length year month := by
  rw [length_of_table h, Php.monthLength, php_isLeap]

/-- The numbers a `Date` holds. -/
def HoldsDate (year month day : ℤ) : Prop :=
  (MIN_YEAR ≤ year ∧ year ≤ MAX_YEAR) ∧ IsDay year month day

/-- The numbers a `Time` holds. -/
def HoldsTime (hour minute second : ℤ) : Prop :=
  (0 ≤ hour ∧ hour ≤ 23) ∧ (0 ≤ minute ∧ minute ≤ 59) ∧ 0 ≤ second ∧ second ≤ 59

/-- The numbers an `Instant` holds. -/
def HoldsInstant (second nano : ℤ) : Prop :=
  (-31557014167219200 ≤ second ∧ second ≤ 31556889864403199) ∧ 0 ≤ nano ∧ nano < 1000000000

theorem library_civilDay (year month day : ℤ) :
    (HoldsDate year month day ∧ Library.civilDay year month day = some (count year month day)) ∨
      (¬ HoldsDate year month day ∧ Library.civilDay year month day = none) := by
  rw [Library.civilDay]
  split_ifs with h
  · obtain ⟨hyear, hmonth, hday⟩ := h
    rw [library_monthLength hmonth] at hday
    left
    exact ⟨⟨hyear, hmonth.1, hmonth.2, hday.1, hday.2⟩,
      congrArg some (library_daysFromCivil day hmonth.1)⟩
  · right
    refine ⟨?_, rfl⟩
    rintro ⟨hyear, hpos, hle, hday, hlength⟩
    rw [← library_monthLength ⟨hpos, hle⟩] at hlength
    exact h ⟨hyear, ⟨hpos, hle⟩, hday, hlength⟩

theorem php_isDay (year month day : ℤ) : Php.isDay year month day = true ↔ HoldsDate year month day := by
  simp only [Php.isDay, Bool.and_eq_true, decide_eq_true_eq, ge_iff_le]
  constructor
  · rintro ⟨⟨⟨⟨⟨hmin, hmax⟩, hpos⟩, hle⟩, hday⟩, hlength⟩
    rw [php_monthLength ⟨hpos, hle⟩] at hlength
    exact ⟨⟨hmin, hmax⟩, hpos, hle, hday, hlength⟩
  · rintro ⟨⟨hmin, hmax⟩, hpos, hle, hday, hlength⟩
    rw [← php_monthLength ⟨hpos, hle⟩] at hlength
    exact ⟨⟨⟨⟨⟨hmin, hmax⟩, hpos⟩, hle⟩, hday⟩, hlength⟩

/-- Where a date is made, it is of the numbers it holds. -/
theorem rust_newDate (year : Int32) (month day : UInt8) :
    (HoldsDate year.toInt month.toNat day.toNat ∧
      Rust.newDate year month day = some ⟨year, month, day⟩) ∨
    (¬ HoldsDate year.toInt month.toNat day.toNat ∧ Rust.newDate year month day = none) := by
  simp only [Rust.newDate]
  split_ifs with h
  · right
    refine ⟨?_, rfl⟩
    rintro ⟨hyear, hpos, hle, hday, hlength⟩
    rcases h with h | h | h
    · exact h hyear
    · exact h ⟨hpos, hle⟩
    · rw [Rust.monthLength, library_monthLength ⟨hpos, hle⟩] at h
      exact h ⟨hday, hlength⟩
  · left
    refine ⟨?_, rfl⟩
    simp only [not_or, not_not] at h
    obtain ⟨hyear, hmonth, hday⟩ := h
    rw [Rust.monthLength, library_monthLength hmonth] at hday
    exact ⟨hyear, hmonth.1, hmonth.2, hday.1, hday.2⟩

theorem rust_moments : Rust.MIN_MOMENT = Php.MIN_MOMENT ∧ Rust.MAX_MOMENT = Php.MAX_MOMENT := by
  decide

theorem rust_newInstant (second : Int64) (nano : UInt32) :
    (HoldsInstant second.toInt nano.toNat ∧ Rust.newInstant second nano = some ⟨second, nano⟩) ∨
    (¬ HoldsInstant second.toInt nano.toNat ∧ Rust.newInstant second nano = none) := by
  have hnano : nano ≥ 1000000000 ↔ (1000000000 : ℤ) ≤ nano.toNat := by
    rw [ge_iff_le, UInt32.le_iff_toNat_le]
    norm_cast
  simp only [Rust.newInstant, rust_moments.1, rust_moments.2, hnano]
  split_ifs with h
  · right
    refine ⟨?_, rfl⟩
    rintro ⟨hsecond, hpos, hlt⟩
    rcases h with h | h
    · omega
    · exact h hsecond
  · left
    rw [not_or, not_not] at h
    exact ⟨⟨h.2, Int.natCast_nonneg _, by omega⟩, rfl⟩

theorem rust_newTime (hour minute second : UInt8) :
    (HoldsTime hour.toNat minute.toNat second.toNat ∧
      Rust.newTime hour minute second = some ⟨hour, minute, second⟩) ∨
    (¬ HoldsTime hour.toNat minute.toNat second.toNat ∧
      Rust.newTime hour minute second = none) := by
  have hgt : ∀ n m : UInt8, n > m ↔ m.toNat < n.toNat := fun _ _ => UInt8.lt_iff_toNat_lt
  have hbounds : (23 : UInt8).toNat = 23 ∧ (59 : UInt8).toNat = 59 := by decide
  simp only [Rust.newTime, hgt, hbounds.1, hbounds.2, HoldsTime]
  split_ifs with h
  · exact .inr ⟨by omega, rfl⟩
  · exact .inl ⟨by omega, rfl⟩

theorem library_clockSecond (hour minute second : ℤ) :
    Library.clockSecond hour minute second =
      if (0 ≤ hour ∧ hour ≤ 23) ∧ (0 ≤ minute ∧ minute ≤ 59) ∧ 0 ≤ second ∧ second ≤ 59 then
        some (hour * 3600 + minute * 60 + second) else none := rfl

theorem php_isTime (hour minute second : ℤ) :
    Php.isTime hour minute second = true ↔ HoldsTime hour minute second := by
  simp only [Php.isTime, HoldsTime, Bool.and_eq_true, decide_eq_true_eq, ge_iff_le]
  tauto

theorem php_isMoment (second nano : ℤ) :
    Php.isMoment second nano = true ↔ HoldsInstant second nano := by
  unfold Php.isMoment Php.MIN_MOMENT Php.MAX_MOMENT HoldsInstant
  simp only [Bool.and_eq_true, decide_eq_true_eq, ge_iff_le]
  tauto

theorem library_instant (second nano : ℤ) :
    (Library.instantOfParts second nano).isSome = true ↔ HoldsInstant second nano := by
  rw [Library.instantOfParts]
  simp only [Library.instantSeconds, Bool.and_eq_true, decide_eq_true_eq, HoldsInstant]
  split_ifs with h
  · exact ⟨fun _ => h, fun _ => rfl⟩
  · exact ⟨fun hnone => absurd hnone Bool.false_ne_true, fun hholds => absurd hholds h⟩

def isoDate (year month day : ℤ) : Text :=
  (if year < 0 then ['-'] else if year > 9999 then ['+'] else []) ++ padded 4 |year| ++
    '-' :: padded 2 month ++ '-' :: padded 2 day

def isoClock (hour minute second : ℤ) : Text :=
  padded 2 hour ++ ':' :: padded 2 minute ++ ':' :: padded 2 second

def isoTime (hour minute second : ℤ) : Text :=
  if second = 0 then padded 2 hour ++ ':' :: padded 2 minute else isoClock hour minute second

def isoFraction (nano : ℤ) : Text :=
  if nano = 0 then []
  else if nano % 1000000 = 0 then '.' :: padded 3 (nano / 1000000)
  else if nano % 1000 = 0 then '.' :: padded 6 (nano / 1000)
  else '.' :: padded 9 nano

def isoInstant (second nano : ℤ) : Text :=
  isoDate (civil (second / 86400)).1 (civil (second / 86400)).2.1 (civil (second / 86400)).2.2 ++
    'T' :: isoClock (second % 86400 / 3600) (second % 86400 % 3600 / 60) (second % 86400 % 60) ++
    isoFraction nano ++ ['Z']

theorem library_dateText (days : ℤ) :
    Library.dateText days = isoDate (civil days).1 (civil days).2.1 (civil days).2.2 := by
  rw [Library.dateText, library_civilFromDays]
  rfl

theorem ofDay_bounds (second : ℤ) : 0 ≤ second % 86400 ∧ second % 86400 < 86400 := by omega

theorem clock_of (second : ℤ) (h : 0 ≤ second) :
    padded 2 (second.tdiv 3600) ++ ':' :: padded 2 ((second.tmod 3600).tdiv 60) ++
        ':' :: padded 2 (second.tmod 60) =
      isoClock (second / 3600) (second % 3600 / 60) (second % 60) := by
  have hminute : 0 ≤ second % 3600 := by omega
  rw [Int.tdiv_eq_ediv_of_nonneg h, Int.tmod_eq_emod_of_nonneg h, Int.tmod_eq_emod_of_nonneg h,
    Int.tdiv_eq_ediv_of_nonneg hminute]
  rfl

theorem fraction_of {nano : ℤ} (h : 0 ≤ nano) :
    (if nano = 0 then []
      else if nano.tmod 1000000 = 0 then '.' :: padded 3 (nano.tdiv 1000000)
      else if nano.tmod 1000 = 0 then '.' :: padded 6 (nano.tdiv 1000)
      else '.' :: padded 9 nano) = isoFraction nano := by
  simp only [isoFraction, Int.tmod_eq_emod_of_nonneg h, Int.tdiv_eq_ediv_of_nonneg h]

/-- The fraction of a nanosecond as a word holds it. -/
theorem word_fraction (nano : UInt32) :
    (if nano = 0 then []
      else if nano % 1000000 = 0 then '.' :: padded 3 (nano / 1000000).toNat
      else if nano % 1000 = 0 then '.' :: padded 6 (nano / 1000).toNat
      else '.' :: padded 9 nano.toNat) = isoFraction nano.toNat := by
  have hzero : ∀ n : UInt32, n = 0 ↔ (n.toNat : ℤ) = 0 := by
    intro n
    rw [← UInt32.toNat_inj]
    norm_cast
  have hmillion : (1000000 : UInt32).toNat = 1000000 ∧ (1000 : UInt32).toNat = 1000 := by decide
  simp only [isoFraction, hzero, UInt32.toNat_mod, UInt32.toNat_div, hmillion.1, hmillion.2,
    Int.natCast_mod, Int.natCast_div]
  rfl

/-- A date, a clock and a fraction put together. -/
theorem instant_of (date : Text) (second : ℤ) (fraction : Text) :
    date ++ 'T' :: padded 2 ((second % 86400).tdiv 3600) ++
        ':' :: padded 2 (((second % 86400).tmod 3600).tdiv 60) ++
        ':' :: padded 2 ((second % 86400).tmod 60) ++ fraction ++ ['Z'] =
      date ++ 'T' :: isoClock (second % 86400 / 3600) (second % 86400 % 3600 / 60)
        (second % 86400 % 60) ++ fraction ++ ['Z'] := by
  rw [← clock_of _ (ofDay_bounds second).1]
  simp only [List.append_assoc, List.cons_append]

theorem library_instantText (second : ℤ) {nano : ℤ} (h : 0 ≤ nano) :
    Library.instantText second nano = isoInstant second nano := by
  rw [isoInstant, ← instant_of, ← library_dateText, ← fraction_of h]
  simp only [Library.instantText, SECONDS_PER_DAY, ne_eq, ite_not]

theorem php_instantText (second : ℤ) {nano : ℤ} (h : 0 ≤ nano) :
    Php.instantText second nano = isoInstant second nano := by
  rw [isoInstant, ← instant_of, ← fraction_of h]
  simp only [Php.instantText, php_floorDiv second (show 0 < SECONDS_PER_DAY by decide),
    php_floorMod second (show 0 < SECONDS_PER_DAY by decide), php_civilFromDays]
  rfl

theorem rust_instantIso (moment : Instant) :
    Rust.instantIso moment = isoInstant moment.second.toInt moment.nano.toNat := by
  rw [isoInstant, ← instant_of, ← word_fraction]
  simp only [Rust.instantIso, Rust.civilFromDays, library_civilFromDays, ne_eq, ite_not]
  rfl

theorem library_timeText {hour minute second : ℤ} (h : HoldsTime hour minute second) :
    Library.timeText (hour * 3600 + minute * 60 + second) = isoTime hour minute second := by
  obtain ⟨hhour, hminute, hsecond⟩ := h
  have hnonneg : 0 ≤ hour * 3600 + minute * 60 + second := by omega
  have hwithin : 0 ≤ (hour * 3600 + minute * 60 + second) % 3600 := by omega
  simp only [Library.timeText, Int.tdiv_eq_ediv_of_nonneg hnonneg,
    Int.tmod_eq_emod_of_nonneg hnonneg, Int.tdiv_eq_ediv_of_nonneg hwithin]
  have hh : (hour * 3600 + minute * 60 + second) / 3600 = hour := by omega
  have hm : (hour * 3600 + minute * 60 + second) % 3600 / 60 = minute := by omega
  have hs : (hour * 3600 + minute * 60 + second) % 60 = second := by omega
  rw [hh, hm, hs]
  rfl

end SoutherNative.Temporals
