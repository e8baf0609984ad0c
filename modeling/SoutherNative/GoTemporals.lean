import SoutherNative.Temporals

set_option autoImplicit false

/-!
# A Go host's calendar

The Go runtime checks the numbers of a date, a time and an instant, writes each as text and reads
the text it writes back. Every sum and product is one of 64 bits or there is no answer.
-/
namespace SoutherNative.Temporals.Go

open Calendar

inductive Fault
  | notTemporal | overflow | outOfRange
  deriving DecidableEq

def int64 (n : ℤ) : Except Fault ℤ :=
  if -9223372036854775808 ≤ n ∧ n < 9223372036854775808 then .ok n else .error .overflow

def floorDiv (a b : ℤ) : Except Fault ℤ := do
  let q ← int64 (a.tdiv b)
  if a.tmod b ≠ 0 ∧ decide (a < 0) ≠ decide (b < 0) then int64 (q - 1) else return q

def floorMod (a b : ℤ) : Except Fault ℤ := do
  let q ← floorDiv a b
  let spanned ← int64 (q * b)
  int64 (a - spanned)

def isLeap (year : ℤ) : Except Fault Bool := do
  let four ← floorMod year 4
  let hundred ← floorMod year 100
  let fourHundred ← floorMod year 400
  return four == 0 && (hundred != 0 || fourHundred == 0)

def monthLength (year month : ℤ) : Except Fault ℤ := do
  if month ∈ [1, 3, 5, 7, 8, 10, 12] then return 31
  if month ∈ [4, 6, 9, 11] then return 30
  if ← isLeap year then return 29
  return 28

def minYear : ℤ := -999999999

def maxYear : ℤ := 999999999

def secondsPerDay : ℤ := 86400

def minMoment : ℤ := -31557014167219200

def maxMoment : ℤ := 31556889864403199

def civilFromDays (days : ℤ) : Except Fault (ℤ × ℤ × ℤ) := do
  let days ← int64 (days + 719468)
  let era ← floorDiv days 146097
  let eraDays ← int64 (era * 146097)
  let dayOfEra ← int64 (days - eraDays)
  let yearOfEra := (dayOfEra - dayOfEra.tdiv 1460 + dayOfEra.tdiv 36524 -
    dayOfEra.tdiv 146096).tdiv 365
  let dayOfYear := dayOfEra - (365 * yearOfEra + yearOfEra.tdiv 4 - yearOfEra.tdiv 100)
  let monthFromMarch := (5 * dayOfYear + 2).tdiv 153
  let day := dayOfYear - (153 * monthFromMarch + 2).tdiv 5 + 1
  let month := if monthFromMarch < 10 then monthFromMarch + 3 else monthFromMarch - 9
  let eraYears ← int64 (era * 400)
  let year ← int64 (yearOfEra + eraYears)
  let year ← if month ≤ 2 then int64 (year + 1) else pure year
  return (year, month, day)

/-- `if month <= 2 { year-- }`. -/
def fromMarchYear (year month : ℤ) : Except Fault ℤ :=
  if month ≤ 2 then int64 (year - 1) else .ok year

def daysFromCivil (year month day : ℤ) : Except Fault ℤ := do
  let year ← fromMarchYear year month
  let era ← floorDiv year 400
  let eraYears ← int64 (era * 400)
  let yearOfEra ← int64 (year - eraYears)
  let monthFromMarch := (← int64 (month + 9)).tmod 12
  let dayOfYear ← int64 ((153 * monthFromMarch + 2).tdiv 5 + day)
  let dayOfYear ← int64 (dayOfYear - 1)
  let dayOfEra ← int64 (yearOfEra * 365 + yearOfEra.tdiv 4 - yearOfEra.tdiv 100 + dayOfYear)
  let eraDays ← int64 (era * 146097)
  let days ← int64 (eraDays + dayOfEra)
  int64 (days - 719468)

/-- `dateText`; a year is negated where it is below nought. -/
def dateText (year month day : ℤ) : Text :=
  let sign := if year < 0 then ['-'] else if year > 9999 then ['+'] else []
  let year := if year < 0 then -year else year
  sign ++ padded 4 year ++ '-' :: padded 2 month ++ '-' :: padded 2 day

def newDate (year : Int32) (month day : UInt8) : Except Fault Date := do
  let y := year.toInt
  let m : ℤ := month.toNat
  let d : ℤ := day.toNat
  if y < minYear ∨ y > maxYear ∨ m < 1 ∨ m > 12 ∨ d < 1 then throw .notTemporal
  if d > (← monthLength y m) then throw .notTemporal
  return ⟨year, month, day⟩

def newTime (hour minute second : UInt8) : Except Fault Time :=
  if hour > 23 ∨ minute > 59 ∨ second > 59 then .error .notTemporal
  else .ok ⟨hour, minute, second⟩

def newDateTime (date : Date) (time : Time) : DateTime := ⟨date, time⟩

def newInstant (second : Int64) (nano : UInt32) : Except Fault Instant :=
  if nano ≥ 1000000000 ∨ second.toInt < minMoment ∨ second.toInt > maxMoment then
    .error .notTemporal
  else .ok ⟨second, nano⟩

/-- `Date.String`. -/
def dateString (date : Date) : Text := dateText date.year.toInt date.month.toNat date.day.toNat

/-- `Time.String`. -/
def timeString (time : Time) : Text :=
  if time.second = 0 then padded 2 time.hour.toNat ++ ':' :: padded 2 time.minute.toNat
  else padded 2 time.hour.toNat ++ ':' :: padded 2 time.minute.toNat ++
    ':' :: padded 2 time.second.toNat

/-- `DateTime.String`. -/
def dateTimeString (at' : DateTime) : Text := dateString at'.date ++ 'T' :: timeString at'.time

/-- `Instant.String`. -/
def instantString (moment : Instant) : Except Fault Text := do
  let (year, month, day) ← civilFromDays (← floorDiv moment.second.toInt secondsPerDay)
  let ofDay ← floorMod moment.second.toInt secondsPerDay
  let written := dateText year month day ++ 'T' :: padded 2 (ofDay.tdiv 3600) ++
    ':' :: padded 2 ((ofDay.tmod 3600).tdiv 60) ++ ':' :: padded 2 (ofDay.tmod 60)
  let nano := moment.nano
  let fraction :=
    if nano = 0 then []
    else if nano % 1000000 = 0 then '.' :: padded 3 (nano / 1000000).toNat
    else if nano % 1000 = 0 then '.' :: padded 6 (nano / 1000).toNat
    else '.' :: padded 9 nano.toNat
  return written ++ fraction ++ ['Z']

inductive TemporalKind
  | date | time | dateTime | instant
  deriving DecidableEq

/-- `strconv.ParseInt(text, 10, 64)`, its error let go: nought where the text is no integer, and
the nearest number of 64 bits where it is past them. -/
def parseInt (text : Text) : ℤ :=
  let (sign, digits) : ℤ × Text := match text with
    | '-' :: digits => (-1, digits)
    | '+' :: digits => (1, digits)
    | digits => (1, digits)
  if digits ≠ [] ∧ ∀ c ∈ digits, c.isDigit = true then
    max (-9223372036854775808) (min 9223372036854775807 (sign * Nat.ofDigitChars 10 digits 0))
  else 0

/-- `strconv.ParseUint(text, 10, 32)`, its error let go. -/
def parseUint32 (text : Text) : ℕ :=
  if text ≠ [] ∧ ∀ c ∈ text, c.isDigit = true then
    min 4294967295 (Nat.ofDigitChars 10 text 0)
  else 0

/-- `strings.Cut`: what is before the first of a character and what is after it. -/
def cut (at' : Char) (text : Text) : Text × Text :=
  (text.takeWhile (· ≠ at'), (text.dropWhile (· ≠ at')).tail)

/-- `strings.TrimSuffix`, of one character. -/
def trimSuffix (last : Char) (text : Text) : Text :=
  if text.getLast? = some last then text.dropLast else text

def part (parts : List Text) (at' : ℕ) : Except Fault Text :=
  match parts[at']? with
  | some text => .ok text
  | none => .error .outOfRange

section Read

variable (check : TemporalKind → Text → Bool)

def admitted (kind : TemporalKind) (text : Text) : Except Fault Unit :=
  if check kind text then .ok () else .error .notTemporal

/-- `switch text[0]`: the sign a text begins with, and what is left of it. -/
def signed : Text → Except Fault (ℤ × Text)
  | [] => .error .outOfRange
  | '-' :: rest => .ok (-1, rest)
  | '+' :: rest => .ok (1, rest)
  | text => .ok (1, text)

def civilFields (text : Text) : Except Fault (ℤ × ℤ × ℤ) := do
  let (sign, text) ← signed text
  let parts := text.splitOn '-'
  let year := parseInt (← part parts 0)
  let month := parseInt (← part parts 1)
  let day := parseInt (← part parts 2)
  return (← int64 (sign * year), month, day)

def civilOfText (text : Text) : Except Fault (ℤ × ℤ × ℤ) := do
  admitted check .date text
  civilFields text

/-- `uint8(n)`. -/
def uint8 (n : ℤ) : UInt8 := UInt8.ofNat (n % 256).toNat

def dateOfText (text : Text) : Except Fault Date := do
  let (year, month, day) ← civilOfText check text
  newDate (Int32.ofInt year) (uint8 month) (uint8 day)

def clockOfText (text : Text) : Except Fault (ℤ × ℤ × ℤ × UInt32) := do
  admitted check .time text
  let (clock, fraction) := cut '.' text
  let parts := clock.splitOn ':'
  let hour := parseInt (← part parts 0)
  let minute := parseInt (← part parts 1)
  let second ← if parts.length > 2 then parseInt <$> part parts 2 else pure 0
  let nano := if fraction ≠ [] then
    UInt32.ofNat (parseUint32 ((fraction ++ List.replicate 9 '0').take 9)) else 0
  return (hour, minute, second, nano)

def timeOfText (text : Text) : Except Fault Time := do
  let (hour, minute, second, nano) ← clockOfText check text
  if nano ≠ 0 then throw .notTemporal
  newTime (uint8 hour) (uint8 minute) (uint8 second)

def dateTimeOfText (text : Text) : Except Fault DateTime := do
  admitted check .dateTime text
  let (date, clock) := cut 'T' text
  let day ← dateOfText check date
  let time ← timeOfText check clock
  return newDateTime day time

def instantOfText (text : Text) : Except Fault Instant := do
  admitted check .instant text
  let (date, clock) := cut 'T' (trimSuffix 'Z' text)
  let (year, month, day) ← civilFields date
  let (hour, minute, second, nano) ← clockOfText check clock
  let days ← daysFromCivil year month day
  let daySeconds ← int64 (days * secondsPerDay)
  let hourSeconds ← int64 (hour * 3600)
  let minuteSeconds ← int64 (minute * 60)
  let toHour ← int64 (daySeconds + hourSeconds)
  let toMinute ← int64 (toHour + minuteSeconds)
  let moment ← int64 (toMinute + second)
  newInstant (Int64.ofInt moment) nano

end Read

@[simp] theorem ok_bind {A B : Type} (a : A) (f : A → Except Fault B) :
    ((.ok a : Except Fault A) >>= f) = f a := rfl

theorem int64_eq {n : ℤ} (h : -9223372036854775808 ≤ n) (h' : n < 9223372036854775808) :
    int64 n = .ok n := if_pos ⟨h, h'⟩

theorem floorDiv_eq {a b : ℤ} (h : -9223372036854775807 ≤ a) (h' : a < 9223372036854775808)
    (hb : 0 < b) : floorDiv a b = .ok (a / b) := by
  have hq := Int.natAbs_tdiv_le_natAbs a b
  rw [floorDiv, int64_eq (by omega) (by omega), ok_bind, ← php_floorDiv a hb]
  simp only [Php.floorDiv]
  split_ifs
  · exact int64_eq (by omega) (by omega)
  · rfl

theorem floorMod_eq {a b : ℤ} (h : -9000000000000000000 ≤ a) (h' : a < 9223372036854775808)
    (hb : 0 < b) (hb' : b ≤ 1000000) : floorMod a b = .ok (a % b) := by
  have hnonneg := Int.emod_nonneg a hb.ne'
  have hlt := Int.emod_lt_of_pos a hb
  have hspan := Int.mul_ediv_add_emod a b
  rw [mul_comm] at hspan
  rw [floorMod, floorDiv_eq (by omega) h' hb, ok_bind, int64_eq (by omega) (by omega), ok_bind,
    int64_eq (by omega) (by omega)]
  congr 1
  omega

theorem isLeap_eq {year : ℤ} (h : -1000000001 ≤ year) (h' : year ≤ 1000000001) :
    isLeap year = .ok (leap year) := by
  rw [isLeap, floorMod_eq (by omega) (by omega) (by decide) (by decide), ok_bind,
    floorMod_eq (by omega) (by omega) (by decide) (by decide), ok_bind,
    floorMod_eq (by omega) (by omega) (by decide) (by decide), ok_bind, ← library_isLeap]
  rfl

theorem monthLength_eq {year month : ℤ} (h : -1000000001 ≤ year) (h' : year ≤ 1000000001)
    (hmonth : 1 ≤ month ∧ month ≤ 12) : monthLength year month = .ok (length year month) := by
  rw [length_of_table hmonth, monthLength, isLeap_eq h h']
  split_ifs with h31 h30 hleap
  · rfl
  · rfl
  · simp only [ok_bind, hleap]
    rfl
  · simp only [ok_bind, hleap]
    rfl

theorem yearOfEra_bounds {dayOfEra : ℤ} (h : 0 ≤ dayOfEra ∧ dayOfEra < 146097) :
    0 ≤ (dayOfEra - dayOfEra.tdiv 1460 + dayOfEra.tdiv 36524 - dayOfEra.tdiv 146096).tdiv 365 ∧
    (dayOfEra - dayOfEra.tdiv 1460 + dayOfEra.tdiv 36524 - dayOfEra.tdiv 146096).tdiv 365 < 400 := by
  have hyears : 0 ≤ dayOfEra - dayOfEra / 1460 + dayOfEra / 36524 - dayOfEra / 146096 := by omega
  simp only [Int.tdiv_eq_ediv_of_nonneg h.1, Int.tdiv_eq_ediv_of_nonneg hyears]
  omega

theorem civilFromDays_eq {days : ℤ} (h : -1000000000000000 ≤ days) (h' : days ≤ 1000000000000000) :
    civilFromDays days = .ok (civil days) := by
  have hin : 0 ≤ days + 719468 - (days + 719468) / 146097 * 146097 ∧
      days + 719468 - (days + 719468) / 146097 * 146097 < 146097 := by omega
  have hyear := yearOfEra_bounds hin
  have hera : -10000000000 ≤ (days + 719468) / 146097 ∧
      (days + 719468) / 146097 ≤ 10000000000 := by omega
  rw [civilFromDays, int64_eq (by omega) (by omega), ok_bind,
    floorDiv_eq (by omega) (by omega) (by decide), ok_bind, int64_eq (by omega) (by omega), ok_bind,
    int64_eq (by omega) (by omega), ok_bind, ← library_civilFromDays, Library.civilFromDays]
  generalize days + 719468 - (days + 719468) / 146097 * 146097 = dayOfEra at hin hyear ⊢
  generalize (days + 719468) / 146097 = era at hera ⊢
  simp only
  generalize (dayOfEra - dayOfEra.tdiv 1460 + dayOfEra.tdiv 36524 - dayOfEra.tdiv 146096).tdiv 365 =
    yearOfEra at hyear ⊢
  rw [int64_eq (by omega) (by omega), ok_bind, int64_eq (by omega) (by omega), ok_bind]
  split_ifs
  all_goals first
    | rfl
    | rw [int64_eq (by omega) (by omega)]; rfl

theorem sinceMarch_eq {month : ℤ} (h : 1 ≤ month ∧ month ≤ 12) :
    (month + 9).tmod 12 = if month > 2 then month - 3 else month + 9 := by
  rw [Int.tmod_eq_emod_of_nonneg (by omega)]
  split_ifs <;> omega

theorem daysFromCivil_eq {year month day : ℤ} (h : -1000000001 ≤ year ∧ year ≤ 1000000001)
    (hmonth : 1 ≤ month ∧ month ≤ 12) (hday : 1 ≤ day ∧ day ≤ 31) :
    daysFromCivil year month day = .ok (count year month day) := by
  have hyear : fromMarchYear year month = .ok (if month ≤ 2 then year - 1 else year) := by
    rw [fromMarchYear]
    split_ifs
    · exact int64_eq (by omega) (by omega)
    · rfl
  have hmarch : -1000000002 ≤ (if month ≤ 2 then year - 1 else year) ∧
      (if month ≤ 2 then year - 1 else year) ≤ 1000000001 := by
    split_ifs <;> omega
  have hsince : 0 ≤ (if month > 2 then month - 3 else month + 9) ∧
      (if month > 2 then month - 3 else month + 9) ≤ 11 := by
    split_ifs <;> omega
  rw [daysFromCivil, count, hyear, ok_bind]
  generalize (if month ≤ 2 then year - 1 else year) = march at hmarch ⊢
  have hyears : 0 ≤ march - march / 400 * 400 ∧ march - march / 400 * 400 < 400 := by omega
  have hera : -3000000 ≤ march / 400 ∧ march / 400 ≤ 3000000 := by omega
  rw [floorDiv_eq (by omega) (by omega) (by decide), ok_bind, int64_eq (by omega) (by omega),
    ok_bind, int64_eq (by omega) (by omega), ok_bind, int64_eq (by omega) (by omega), ok_bind,
    sinceMarch_eq hmonth]
  generalize (if month > 2 then month - 3 else month + 9) = since at hsince ⊢
  generalize march - march / 400 * 400 = yearOfEra at hyears ⊢
  generalize march / 400 = era at hera ⊢
  have hplace : 0 ≤ 153 * since + 2 := by omega
  simp only [Int.tdiv_eq_ediv_of_nonneg hplace, Int.tdiv_eq_ediv_of_nonneg hyears.1]
  have hofYear : 0 ≤ (153 * since + 2) / 5 ∧ (153 * since + 2) / 5 ≤ 340 := by omega
  generalize (153 * since + 2) / 5 = ofYear at hofYear ⊢
  have hleaps : 0 ≤ yearOfEra / 4 ∧ yearOfEra / 4 < 100 ∧ 0 ≤ yearOfEra / 100 ∧
      yearOfEra / 100 < 4 := by omega
  generalize yearOfEra / 4 = fours at hleaps ⊢
  generalize yearOfEra / 100 = hundreds at hleaps ⊢
  rw [int64_eq (by omega) (by omega), ok_bind, int64_eq (by omega) (by omega), ok_bind,
    int64_eq (by omega) (by omega), ok_bind, int64_eq (by omega) (by omega), ok_bind,
    int64_eq (by omega) (by omega), ok_bind, int64_eq (by omega) (by omega)]

theorem dateText_eq (year month day : ℤ) : dateText year month day = isoDate year month day := by
  have habs : (if year < 0 then -year else year) = |year| := by
    split_ifs with hneg
    · exact (abs_of_neg hneg).symm
    · exact (abs_of_nonneg (by omega)).symm
  rw [dateText, isoDate, habs]

theorem newDate_eq (year : Int32) (month day : UInt8) :
    (HoldsDate year.toInt month.toNat day.toNat ∧
      newDate year month day = .ok ⟨year, month, day⟩) ∨
    (¬ HoldsDate year.toInt month.toNat day.toNat ∧
      newDate year month day = .error .notTemporal) := by
  have hyears : minYear = MIN_YEAR ∧ maxYear = MAX_YEAR := ⟨rfl, rfl⟩
  have hbounds : MIN_YEAR = -999999999 ∧ MAX_YEAR = 999999999 := ⟨rfl, rfl⟩
  simp only [newDate, hyears.1, hyears.2]
  by_cases hcoarse : year.toInt < MIN_YEAR ∨ year.toInt > MAX_YEAR ∨ (month.toNat : ℤ) < 1 ∨
      (month.toNat : ℤ) > 12 ∨ (day.toNat : ℤ) < 1
  · right
    rw [if_pos hcoarse]
    refine ⟨?_, rfl⟩
    rintro ⟨hyear, hpos, hle, hday, -⟩
    omega
  · rw [if_neg hcoarse]
    have hmonth := @monthLength_eq year.toInt month.toNat (by omega) (by omega) (by omega)
    simp only [hmonth, ok_bind]
    split_ifs with hlong
    · right
      refine ⟨?_, rfl⟩
      rintro ⟨-, -, -, -, hlength⟩
      omega
    · left
      exact ⟨⟨by omega, by omega, by omega, by omega, by omega⟩, rfl⟩

theorem newTime_eq (hour minute second : UInt8) :
    (HoldsTime hour.toNat minute.toNat second.toNat ∧
      newTime hour minute second = .ok ⟨hour, minute, second⟩) ∨
    (¬ HoldsTime hour.toNat minute.toNat second.toNat ∧
      newTime hour minute second = .error .notTemporal) := by
  have hgt : ∀ n m : UInt8, n > m ↔ m.toNat < n.toNat := fun _ _ => UInt8.lt_iff_toNat_lt
  have hbounds : (23 : UInt8).toNat = 23 ∧ (59 : UInt8).toNat = 59 := by decide
  simp only [newTime, hgt, hbounds.1, hbounds.2, HoldsTime]
  split_ifs with h
  · exact .inr ⟨by omega, rfl⟩
  · exact .inl ⟨by omega, rfl⟩

theorem newInstant_eq (second : Int64) (nano : UInt32) :
    (HoldsInstant second.toInt nano.toNat ∧ newInstant second nano = .ok ⟨second, nano⟩) ∨
    (¬ HoldsInstant second.toInt nano.toNat ∧
      newInstant second nano = .error .notTemporal) := by
  have hnano : nano ≥ 1000000000 ↔ (1000000000 : ℤ) ≤ nano.toNat := by
    rw [ge_iff_le, UInt32.le_iff_toNat_le]
    norm_cast
  simp only [newInstant, hnano, minMoment, maxMoment, HoldsInstant]
  split_ifs with h
  · exact .inr ⟨by omega, rfl⟩
  · exact .inl ⟨by omega, rfl⟩

theorem instantString_eq {moment : Instant} (h : HoldsInstant moment.second.toInt moment.nano.toNat) :
    instantString moment = .ok (isoInstant moment.second.toInt moment.nano.toNat) := by
  obtain ⟨⟨hlow, hhigh⟩, -⟩ := h
  have hper : secondsPerDay = 86400 := rfl
  rw [instantString, hper, floorDiv_eq (by omega) (by omega) (by decide), ok_bind,
    civilFromDays_eq (by omega) (by omega), ok_bind, isoInstant, ← instant_of, ← word_fraction,
    ← dateText_eq]
  generalize civil (moment.second.toInt / 86400) = named
  obtain ⟨year, month, day⟩ := named
  simp only
  rw [floorMod_eq (by omega) (by omega) (by decide) (by decide), ok_bind]
  rfl

/-- A number that is not negative, as it is padded: digits, and some. -/
theorem padded_digits (width : ℕ) {n : ℤ} (h : 0 ≤ n) :
    padded width n ≠ [] ∧ (∀ c ∈ padded width n, c.isDigit = true) ∧
      (Nat.ofDigitChars 10 (padded width n) 0 : ℤ) = n := by
  rw [padded]
  simp only [if_neg (not_lt.mpr h)]
  refine ⟨?_, ?_, ?_⟩
  · exact List.append_ne_nil_of_right_ne_nil _ Nat.toDigits_ne_nil
  · intro c hc
    rcases List.mem_append.mp hc with hzero | hdigit
    · rw [List.eq_of_mem_replicate hzero]
      decide
    · exact Nat.isDigit_of_mem_toDigits (by decide) (by decide) hdigit
  · rw [Nat.ofDigitChars_append, Nat.ofDigitChars_replicate_zero, Nat.mul_zero,
      Nat.ofDigitChars_ten_toDigits]
    omega

theorem not_mem_digits {text : Text} (h : ∀ c ∈ text, c.isDigit = true) {stop : Char}
    (hstop : stop.isDigit = false) : stop ∉ text := by
  intro hmem
  rw [h stop hmem] at hstop
  cases hstop

theorem parseInt_padded (width : ℕ) {n : ℤ} (h : 0 ≤ n) (h' : n < 9223372036854775808) :
    parseInt (padded width n) = n := by
  obtain ⟨hne, hdigits, hvalue⟩ := padded_digits width h
  have hminus := not_mem_digits hdigits (by decide : '-'.isDigit = false)
  have hplus := not_mem_digits hdigits (by decide : '+'.isDigit = false)
  generalize padded width n = text at hne hdigits hvalue hminus hplus
  have hsign : (match text with
      | '-' :: digits => ((-1 : ℤ), digits)
      | '+' :: digits => (1, digits)
      | digits => (1, digits)) = (1, text) := by
    split
    · exact absurd List.mem_cons_self hminus
    · exact absurd List.mem_cons_self hplus
    · rfl
  unfold parseInt
  rw [hsign]
  simp only [if_pos (And.intro hne hdigits), hvalue]
  omega

theorem split_three {stop : Char} {one two three : Text} (h₁ : stop ∉ one) (h₂ : stop ∉ two)
    (h₃ : stop ∉ three) :
    (one ++ stop :: two ++ stop :: three).splitOn stop = [one, two, three] := by
  rw [List.append_assoc, List.cons_append, List.splitOn_append_cons_self_of_not_mem h₁,
    List.splitOn_append_cons_self_of_not_mem h₂, List.splitOn_eq_singleton h₃]

theorem cut_append {stop : Char} {one two : Text} (h : stop ∉ one) :
    cut stop (one ++ stop :: two) = (one, two) := by
  have hone : ∀ c ∈ one, decide (c ≠ stop) = true := by
    intro c hc
    rw [decide_eq_true_eq]
    rintro rfl
    exact h hc
  rw [cut, List.takeWhile_append_of_pos hone, List.dropWhile_append_of_pos hone]
  simp

theorem cut_none {stop : Char} {one : Text} (h : stop ∉ one) : cut stop one = (one, []) := by
  have hone : ∀ c ∈ one, decide (c ≠ stop) = true := by
    intro c hc
    rw [decide_eq_true_eq]
    rintro rfl
    exact h hc
  rw [cut, List.takeWhile_eq_self_iff.mpr hone, List.dropWhile_eq_nil_iff.mpr hone]
  rfl

/-- The fields of a date are the ones it was written of. -/
theorem civilFields_isoDate {year month day : ℤ} (hyear : -1000000001 ≤ year ∧ year ≤ 1000000001)
    (hmonth : 1 ≤ month ∧ month ≤ 12) (hday : 1 ≤ day ∧ day ≤ 31) :
    civilFields (isoDate year month day) = .ok (year, month, day) := by
  have hnonneg : 0 ≤ |year| := abs_nonneg year
  have hsize : |year| ≤ 1000000001 := abs_le.mpr ⟨by omega, by omega⟩
  obtain ⟨hne, hdigits, -⟩ := padded_digits 4 hnonneg
  obtain ⟨-, hmonths, -⟩ := @padded_digits 2 month (by omega)
  obtain ⟨-, hdays, -⟩ := @padded_digits 2 day (by omega)
  have hsplit := @split_three '-' _ _ _ (not_mem_digits hdigits rfl)
    (not_mem_digits hmonths rfl) (not_mem_digits hdays rfl)
  have hread : ∀ sign : ℤ, sign * |year| = year → (do
      let parts := (padded 4 |year| ++ '-' :: padded 2 month ++ '-' :: padded 2 day).splitOn '-'
      let year := parseInt (← part parts 0)
      let month := parseInt (← part parts 1)
      let day := parseInt (← part parts 2)
      return (← int64 (sign * year), month, day)) = (.ok (year, month, day) : Except Fault _) := by
    intro sign hsign
    rw [hsplit]
    simp only [part, List.getElem?_cons_zero, List.getElem?_cons_succ, ok_bind,
      parseInt_padded 4 hnonneg (show |year| < _ by omega),
      parseInt_padded 2 (show 0 ≤ month by omega) (by omega),
      parseInt_padded 2 (show 0 ≤ day by omega) (by omega), hsign]
    rw [int64_eq (by omega) (by omega), ok_bind]
    rfl
  have hsigned : ∀ {text : Text} {sign : ℤ},
      signed text = .ok (sign, padded 4 |year| ++ '-' :: padded 2 month ++ '-' :: padded 2 day) →
      sign * |year| = year → civilFields text = .ok (year, month, day) := by
    intro text sign htext hsign
    rw [civilFields, htext, ok_bind]
    exact hread sign hsign
  rw [isoDate]
  split_ifs with hneg hlong
  · exact hsigned rfl (by rw [abs_of_neg hneg]; omega)
  · exact hsigned rfl (by rw [abs_of_nonneg (by omega)]; omega)
  · apply @hsigned _ 1 _ (by rw [abs_of_nonneg (by omega)]; omega)
    obtain ⟨c, rest, hcons⟩ := List.exists_cons_of_ne_nil hne
    have hc := hdigits c (hcons ▸ List.mem_cons_self)
    rw [List.nil_append, hcons]
    simp only [List.cons_append, signed]
    split
    · next heq => cases heq
    · next heq =>
      rw [(List.cons.inj heq).1] at hc
      cases hc
    · next heq =>
      rw [(List.cons.inj heq).1] at hc
      cases hc
    · rfl

/-- A number below a power of ten is padded to as many digits. -/
theorem padded_length {width : ℕ} (hwidth : 0 < width) {n : ℤ} (h : 0 ≤ n) (h' : n.natAbs < 10 ^ width) :
    (padded width n).length = width := by
  have hdigits := (Nat.length_toDigits_le_iff (b := 10) (by decide) hwidth).mpr h'
  simp only [padded, if_neg (not_lt.mpr h), List.length_append, List.length_replicate]
  omega

theorem ofDigitChars_lt {digits : Text} (h : ∀ c ∈ digits, c.isDigit = true) :
    Nat.ofDigitChars 10 digits 0 < 10 ^ digits.length := by
  induction digits with
  | nil => decide
  | cons c digits ih =>
    have hrest := ih fun d hd => h d (List.mem_cons_of_mem c hd)
    have hdigit : c.toNat - '0'.toNat ≤ 9 := by
      have hc := h c List.mem_cons_self
      simp only [Char.isDigit, Bool.and_eq_true, decide_eq_true_eq, ge_iff_le] at hc
      have hnine := UInt32.le_iff_toNat_le.mp hc.2
      have hcode : '0'.toNat = 48 ∧ '9'.val.toNat = 57 := by decide
      rw [hcode.2] at hnine
      rw [hcode.1]
      exact Nat.sub_le_of_le_add hnine
    rw [Nat.ofDigitChars_cons, Nat.ofDigitChars_eq_ofDigitChars_zero, List.length_cons, pow_succ]
    nlinarith

/-- A fraction's digits, filled up to nine, are its nanoseconds. -/
theorem parseUint32_filled {digits : Text} (hdigits : ∀ c ∈ digits, c.isDigit = true)
    (hne : digits ≠ []) (hle : digits.length ≤ 9) :
    parseUint32 ((digits ++ List.replicate 9 '0').take 9) =
      Nat.ofDigitChars 10 digits 0 * 10 ^ (9 - digits.length) := by
  have htake : (digits ++ List.replicate 9 '0').take 9 =
      digits ++ List.replicate (9 - digits.length) '0' := by
    rw [List.take_append, List.take_of_length_le hle, List.take_replicate,
      Nat.min_eq_left (by omega)]
  have hfilled : ∀ c ∈ digits ++ List.replicate (9 - digits.length) '0', c.isDigit = true := by
    intro c hc
    rcases List.mem_append.mp hc with hdigit | hzero
    · exact hdigits c hdigit
    · rw [List.eq_of_mem_replicate hzero]
      decide
  have hnumber : Nat.ofDigitChars 10 (digits ++ List.replicate (9 - digits.length) '0') 0 =
      Nat.ofDigitChars 10 digits 0 * 10 ^ (9 - digits.length) := by
    rw [Nat.ofDigitChars_append, Nat.ofDigitChars_replicate_zero, mul_comm]
  have hsmall : Nat.ofDigitChars 10 digits 0 * 10 ^ (9 - digits.length) < 1000000000 := by
    calc Nat.ofDigitChars 10 digits 0 * 10 ^ (9 - digits.length)
        < 10 ^ digits.length * 10 ^ (9 - digits.length) :=
          mul_lt_mul_of_pos_right (ofDigitChars_lt hdigits) (by positivity)
      _ = 1000000000 := by rw [← pow_add, Nat.add_sub_cancel' hle]; norm_num
  rw [htake, parseUint32, if_pos ⟨List.append_ne_nil_of_left_ne_nil hne _, hfilled⟩, hnumber]
  omega

theorem parseUint32_padded {width : ℕ} (hwidth : 0 < width ∧ width ≤ 9) {n : ℤ} (h : 0 ≤ n)
    (h' : n.natAbs < 10 ^ width) :
    (parseUint32 ((padded width n ++ List.replicate 9 '0').take 9) : ℤ) = n * 10 ^ (9 - width) := by
  obtain ⟨hne, hdigits, hvalue⟩ := padded_digits width h
  have hlength := padded_length hwidth.1 h h'
  rw [parseUint32_filled hdigits hne (by omega), hlength, Nat.cast_mul, hvalue]
  norm_cast

def fractionDigits (nano : ℤ) : Text := (isoFraction nano).tail

theorem cut_fraction {clock : Text} (h : '.' ∉ clock) (nano : ℤ) :
    cut '.' (clock ++ isoFraction nano) = (clock, fractionDigits nano) := by
  rw [fractionDigits, isoFraction]
  split_ifs
  · rw [List.append_nil]
    exact cut_none h
  · exact cut_append h
  · exact cut_append h
  · exact cut_append h

def readNano (fraction : Text) : UInt32 :=
  if fraction ≠ [] then UInt32.ofNat (parseUint32 ((fraction ++ List.replicate 9 '0').take 9)) else 0

theorem readNano_fraction {nano : ℤ} (h : 0 ≤ nano ∧ nano < 1000000000) :
    readNano (fractionDigits nano) = UInt32.ofNat nano.toNat := by
  have hread : ∀ {width : ℕ} {n : ℤ}, 0 < width ∧ width ≤ 9 → 0 ≤ n → n.natAbs < 10 ^ width →
      n * 10 ^ (9 - width) = nano → readNano (padded width n) = UInt32.ofNat nano.toNat := by
    intro width n hwidth hn hlt hnano
    have hvalue := parseUint32_padded hwidth hn hlt
    rw [hnano] at hvalue
    rw [readNano, if_pos (padded_digits width hn).1]
    congr 1
    omega
  rw [fractionDigits, isoFraction]
  split_ifs with hzero hmillion hthousand
  · rw [hzero]
    rfl
  · exact @hread 3 _ (by decide) (by omega) (by norm_num; omega) (by norm_num; omega)
  · exact @hread 6 _ (by decide) (by omega) (by norm_num; omega) (by norm_num; omega)
  · exact @hread 9 _ (by decide) (by omega) (by norm_num; omega) (by norm_num)

section Read

variable {check : TemporalKind → Text → Bool}

inductive Iso : TemporalKind → Text → Prop
  | date {year month day : ℤ} : (MIN_YEAR ≤ year ∧ year ≤ MAX_YEAR) → IsDay year month day →
    Iso .date (isoDate year month day)
  | time {hour minute second : ℤ} : HoldsTime hour minute second →
    Iso .time (isoTime hour minute second)
  | clock {hour minute second nano : ℤ} : HoldsTime hour minute second →
    0 ≤ nano ∧ nano < 1000000000 → Iso .time (isoClock hour minute second ++ isoFraction nano)
  | dateTime {date time : Text} : Iso .date date → Iso .time time → Iso .dateTime (date ++ 'T' :: time)
  | instant {second nano : ℤ} : HoldsInstant second nano → Iso .instant (isoInstant second nano)

def Admits (check : TemporalKind → Text → Bool) : Prop :=
  ∀ kind text, Iso kind text → check kind text = true

theorem admitted_eq (h : Admits check) {kind : TemporalKind} {text : Text} (hiso : Iso kind text) :
    admitted check kind text = .ok () := if_pos (h kind text hiso)

theorem uint8_toNat (n : UInt8) : uint8 (n.toNat : ℤ) = n := by
  have hlt := n.toNat_lt
  have hmod : ((n.toNat : ℤ) % 256).toNat = n.toNat := by omega
  rw [uint8, hmod]
  exact UInt8.ofNat_toNat

theorem dateOfText_dateString (h : Admits check) {date : Date}
    (hdate : newDate date.year date.month date.day = .ok date) :
    dateOfText check (dateString date) = .ok date := by
  rcases newDate_eq date.year date.month date.day with ⟨hholds, -⟩ | ⟨-, hnone⟩
  · obtain ⟨hyear, hday⟩ := hholds
    have hbounds : MIN_YEAR = -999999999 ∧ MAX_YEAR = 999999999 := ⟨rfl, rfl⟩
    have hpos := hday.month_pos
    have hle := hday.month_le
    have hlow := hday.day_pos
    have hhigh := hday.day_bounds.1
    rw [dateOfText, civilOfText, dateString, dateText_eq, admitted_eq h (.date hyear hday), ok_bind,
      civilFields_isoDate (by omega) (by omega) (by omega), ok_bind]
    simp only [uint8_toNat, Int32.ofInt_toInt]
    exact hdate
  · rw [hnone] at hdate
    cases hdate

theorem padded_not_mem (width : ℕ) {n : ℤ} (h : 0 ≤ n) {stop : Char} (hstop : stop.isDigit = false) :
    stop ∉ padded width n := not_mem_digits (padded_digits width h).2.1 hstop

theorem not_mem_isoClock {hour minute second : ℤ} (h : HoldsTime hour minute second) {stop : Char}
    (hstop : stop.isDigit = false) (hcolon : stop ≠ ':') : stop ∉ isoClock hour minute second := by
  obtain ⟨hhour, hminute, hsecond⟩ := h
  simp only [isoClock, List.mem_append, List.mem_cons, not_or]
  exact ⟨⟨padded_not_mem 2 hhour.1 hstop, hcolon, padded_not_mem 2 hminute.1 hstop⟩, hcolon,
    padded_not_mem 2 hsecond.1 hstop⟩

theorem not_mem_isoTime {hour minute second : ℤ} (h : HoldsTime hour minute second) {stop : Char}
    (hstop : stop.isDigit = false) (hcolon : stop ≠ ':') : stop ∉ isoTime hour minute second := by
  rw [isoTime]
  split_ifs
  · obtain ⟨hhour, hminute, -⟩ := h
    simp only [List.mem_append, List.mem_cons, not_or]
    exact ⟨padded_not_mem 2 hhour.1 hstop, hcolon, padded_not_mem 2 hminute.1 hstop⟩
  · exact not_mem_isoClock h hstop hcolon

def clockFields (parts : List Text) (fraction : Text) : Except Fault (ℤ × ℤ × ℤ × UInt32) := do
  let hour := parseInt (← part parts 0)
  let minute := parseInt (← part parts 1)
  let second ← if parts.length > 2 then parseInt <$> part parts 2 else pure 0
  return (hour, minute, second, readNano fraction)

theorem clockOfText_eq (h : Admits check) {text clock fraction : Text} (hiso : Iso .time text)
    (hcut : cut '.' text = (clock, fraction)) :
    clockOfText check text = clockFields (clock.splitOn ':') fraction := by
  rw [clockOfText, admitted_eq h hiso, ok_bind, hcut]
  rfl

theorem clockFields_isoClock {hour minute second : ℤ} (h : HoldsTime hour minute second)
    (fraction : Text) :
    clockFields ((isoClock hour minute second).splitOn ':') fraction =
      .ok (hour, minute, second, readNano fraction) := by
  obtain ⟨hhour, hminute, hsecond⟩ := h
  have hcolon : ':'.isDigit = false := rfl
  rw [isoClock, split_three (padded_not_mem 2 hhour.1 hcolon) (padded_not_mem 2 hminute.1 hcolon)
    (padded_not_mem 2 hsecond.1 hcolon), clockFields]
  simp only [part, List.getElem?_cons_zero, List.getElem?_cons_succ, ok_bind, List.length_cons,
    List.length_nil, Nat.reduceAdd, Nat.reduceGT, if_true]
  rw [parseInt_padded 2 hhour.1 (by omega), parseInt_padded 2 hminute.1 (by omega)]
  change Except.ok (hour, minute, parseInt (padded 2 second), readNano fraction) = _
  rw [parseInt_padded 2 hsecond.1 (by omega)]

theorem clockFields_isoTime {hour minute second : ℤ} (h : HoldsTime hour minute second)
    (fraction : Text) :
    clockFields ((isoTime hour minute second).splitOn ':') fraction =
      .ok (hour, minute, second, readNano fraction) := by
  rw [isoTime]
  split_ifs with hzero
  · obtain ⟨hhour, hminute, -⟩ := h
    have hcolon : ':'.isDigit = false := rfl
    rw [List.splitOn_append_cons_self_of_not_mem (padded_not_mem 2 hhour.1 hcolon),
      List.splitOn_eq_singleton (padded_not_mem 2 hminute.1 hcolon), clockFields]
    simp only [part, List.getElem?_cons_zero, List.getElem?_cons_succ, ok_bind, List.length_cons,
      List.length_nil, Nat.reduceAdd, gt_iff_lt, lt_irrefl, if_false]
    rw [parseInt_padded 2 hhour.1 (by omega), parseInt_padded 2 hminute.1 (by omega), hzero]
    rfl
  · exact clockFields_isoClock h fraction

theorem timeOfText_isoTime (h : Admits check) {time : Time}
    (htime : newTime time.hour time.minute time.second = .ok time) :
    timeOfText check (isoTime time.hour.toNat time.minute.toNat time.second.toNat) = .ok time := by
  rcases newTime_eq time.hour time.minute time.second with ⟨hholds, -⟩ | ⟨-, hnone⟩
  · have hcut := cut_none (not_mem_isoTime hholds (show '.'.isDigit = false from rfl) (by decide))
    rw [timeOfText, clockOfText_eq h (.time hholds) hcut, clockFields_isoTime hholds, ok_bind]
    simp only [uint8_toNat]
    exact htime
  · rw [hnone] at htime
    cases htime

theorem timeString_eq (time : Time) :
    timeString time = isoTime time.hour.toNat time.minute.toNat time.second.toNat := by
  have hzero : time.second = 0 ↔ (time.second.toNat : ℤ) = 0 := by
    rw [← UInt8.toNat_inj]
    norm_cast
  simp only [timeString, isoTime, hzero]
  rfl

theorem not_mem_isoDate {year month day : ℤ} (h : HoldsDate year month day ∨ IsDay year month day) :
    'T' ∉ isoDate year month day := by
  have hday : IsDay year month day := by
    rcases h with h | h
    · exact h.2
    · exact h
  have hdigit : 'T'.isDigit = false := rfl
  have hmonth := hday.month_pos
  have hpos := hday.day_pos
  have hsign : 'T' ∉ (if year < 0 then ['-'] else if year > 9999 then ['+'] else []) := by
    split_ifs <;> simp
  rw [isoDate]
  simp only [List.mem_append, List.mem_cons, not_or]
  exact ⟨⟨⟨hsign, padded_not_mem 4 (abs_nonneg year) hdigit⟩, by decide,
    padded_not_mem 2 (by omega) hdigit⟩, by decide, padded_not_mem 2 (by omega) hdigit⟩

theorem dateTimeOfText_dateTimeString (h : Admits check) {both : DateTime}
    (hdate : newDate both.date.year both.date.month both.date.day = .ok both.date)
    (htime : newTime both.time.hour both.time.minute both.time.second = .ok both.time) :
    dateTimeOfText check (dateTimeString both) = .ok both := by
  have hday := dateOfText_dateString h hdate
  have hclock := timeOfText_isoTime h htime
  rcases newDate_eq both.date.year both.date.month both.date.day with ⟨hholds, -⟩ | ⟨-, hnone⟩
  · rcases newTime_eq both.time.hour both.time.minute both.time.second with ⟨hholds', -⟩ | ⟨-, hnone⟩
    · have hcut := @cut_append 'T' _ (isoTime both.time.hour.toNat both.time.minute.toNat
        both.time.second.toNat) (not_mem_isoDate (.inl hholds))
      rw [dateString, dateText_eq] at hday
      rw [dateTimeOfText, dateTimeString, dateString, dateText_eq, timeString_eq,
        admitted_eq h (.dateTime (.date hholds.1 hholds.2) (.time hholds')), ok_bind, hcut]
      simp only [hday, hclock, ok_bind]
      rfl
    · rw [hnone] at htime
      cases htime
  · rw [hnone] at hdate
    cases hdate

/-- The days of an instant are in the years one may be written in. -/
theorem instant_year {second : ℤ} (h : -31557014167219200 ≤ second ∧ second ≤ 31556889864403199) :
    -1000000000 ≤ (civil (second / 86400)).1 ∧ (civil (second / 86400)).1 ≤ 1000000000 := by
  obtain ⟨hday, hcount⟩ := civil_spec (second / 86400)
  have hfirst : count (-1000000000) 1 1 = -365243219528 := by decide
  have hlast : count 1000000000 12 31 = 365241780837 := by decide
  constructor
  · apply year_of_first hday
    rw [hcount, hfirst]
    omega
  · apply year_of_last hday
    rw [hcount, hlast]
    omega

/-- The clock of a second of a day. -/
theorem holdsTime_of (second : ℤ) :
    HoldsTime (second % 86400 / 3600) (second % 86400 % 3600 / 60) (second % 86400 % 60) := by
  refine ⟨?_, ?_, ?_⟩ <;> omega

theorem trimSuffix_append (last : Char) (text : Text) : trimSuffix last (text ++ [last]) = text := by
  rw [trimSuffix, List.getLast?_concat, if_pos rfl, List.dropLast_concat]

theorem moment_eq {second : ℤ} (h : -31557014167219200 ≤ second ∧ second ≤ 31556889864403199) :
    (do
      let daySeconds ← int64 (second / 86400 * secondsPerDay)
      let hourSeconds ← int64 (second % 86400 / 3600 * 3600)
      let minuteSeconds ← int64 (second % 86400 % 3600 / 60 * 60)
      let toHour ← int64 (daySeconds + hourSeconds)
      let toMinute ← int64 (toHour + minuteSeconds)
      int64 (toMinute + second % 86400 % 60)) = .ok second := by
  have hper : secondsPerDay = 86400 := rfl
  rw [hper, int64_eq (by omega) (by omega), ok_bind, int64_eq (by omega) (by omega), ok_bind,
    int64_eq (by omega) (by omega), ok_bind, int64_eq (by omega) (by omega), ok_bind,
    int64_eq (by omega) (by omega), ok_bind, int64_eq (by omega) (by omega)]
  congr 1
  omega

theorem instantOfText_isoInstant (h : Admits check) {moment : Instant}
    (hmoment : newInstant moment.second moment.nano = .ok moment) :
    instantOfText check (isoInstant moment.second.toInt moment.nano.toNat) = .ok moment := by
  rcases newInstant_eq moment.second moment.nano with ⟨hholds, -⟩ | ⟨-, hnone⟩
  · obtain ⟨hsecond, hnano⟩ := id hholds
    obtain ⟨hday, hcount⟩ := civil_spec (moment.second.toInt / 86400)
    have hyear := instant_year hsecond
    have hmonth := hday.month_pos
    have hmonth' := hday.month_le
    have hlow := hday.day_pos
    have hhigh := hday.day_bounds.1
    have hclock := holdsTime_of moment.second.toInt
    have hput := moment_eq hsecond
    have hiso := admitted_eq h (.instant hholds)
    rw [instantOfText, hiso, ok_bind, isoInstant, trimSuffix_append, List.append_assoc,
      List.cons_append, cut_append (not_mem_isoDate (.inr hday))]
    simp only
    rw [civilFields_isoDate (by omega) ⟨hmonth, hmonth'⟩ ⟨hlow, hhigh⟩, ok_bind]
    simp only
    rw [clockOfText_eq h (.clock hclock hnano)
      (cut_fraction (not_mem_isoClock hclock rfl (by decide)) _), clockFields_isoClock hclock, ok_bind]
    simp only
    rw [daysFromCivil_eq (by omega) ⟨hmonth, hmonth'⟩ ⟨hlow, hhigh⟩, ok_bind, hcount,
      readNano_fraction hnano]
    have hsum := congrArg (fun result => result >>= fun moment' =>
      newInstant (Int64.ofInt moment') (UInt32.ofNat (moment.nano.toNat : ℤ).toNat)) hput
    simp only [bind_assoc, ok_bind, Int64.ofInt_toInt, Int.toNat_natCast, UInt32.ofNat_toNat,
      hmoment] at hsum ⊢
    exact hsum
  · rw [hnone] at hmoment
    cases hmoment

end Read

/-- The numbers the library's runtime makes a value of are the numbers each host has one of. -/
structure SameValues : Prop where
  dates : ∀ year month day : ℤ,
    ((Library.civilDay year month day).isSome = true ↔ Php.isDay year month day = true) ∧
    ((Library.civilDay year month day).isSome = true ↔ ∃ date : Date,
      date.numbers = (year, month, day) ∧
      Rust.newDate date.year date.month date.day = some date) ∧
    ((Library.civilDay year month day).isSome = true ↔ ∃ date : Date,
      date.numbers = (year, month, day) ∧ newDate date.year date.month date.day = .ok date)
  times : ∀ hour minute second : ℤ,
    ((Library.clockSecond hour minute second).isSome = true ↔ Php.isTime hour minute second = true) ∧
    ((Library.clockSecond hour minute second).isSome = true ↔ ∃ time : Time,
      time.numbers = (hour, minute, second) ∧
      Rust.newTime time.hour time.minute time.second = some time) ∧
    ((Library.clockSecond hour minute second).isSome = true ↔ ∃ time : Time,
      time.numbers = (hour, minute, second) ∧ newTime time.hour time.minute time.second = .ok time)
  instants : ∀ second nano : ℤ,
    ((Library.instantOfParts second nano).isSome = true ↔ Php.isMoment second nano = true) ∧
    ((Library.instantOfParts second nano).isSome = true ↔ ∃ moment : Instant,
      moment.numbers = (second, nano) ∧
      Rust.newInstant moment.second moment.nano = some moment) ∧
    ((Library.instantOfParts second nano).isSome = true ↔ ∃ moment : Instant,
      moment.numbers = (second, nano) ∧ newInstant moment.second moment.nano = .ok moment)

/-- The four write each value as one text. -/
structure SameTexts : Prop where
  dates : ∀ (date : Date) day,
    Library.civilDay date.year.toInt date.month.toNat date.day.toNat = some day →
    Rust.dateIso date = Library.dateText day ∧ dateString date = Library.dateText day ∧
      Php.dateText date.year.toInt date.month.toNat date.day.toNat = Library.dateText day
  times : ∀ (time : Time) ofDay,
    Library.clockSecond time.hour.toNat time.minute.toNat time.second.toNat = some ofDay →
    Rust.timeIso time = Library.timeText ofDay ∧ timeString time = Library.timeText ofDay ∧
      Php.timeText time.hour.toNat time.minute.toNat time.second.toNat = Library.timeText ofDay
  dateTimes : ∀ (both : DateTime) second,
    Library.datetimeOfParts both.date.year.toInt both.date.month.toNat both.date.day.toNat
      both.time.hour.toNat both.time.minute.toNat both.time.second.toNat = some second →
    Rust.dateTimeIso both = Library.dateTimeText second ∧
      dateTimeString both = Library.dateTimeText second ∧
      Php.dateText both.date.year.toInt both.date.month.toNat both.date.day.toNat ++
          'T' :: Php.timeText both.time.hour.toNat both.time.minute.toNat both.time.second.toNat =
        Library.dateTimeText second
  instants : ∀ moment : Instant,
    (Library.instantOfParts moment.second.toInt moment.nano.toNat).isSome = true →
    Rust.instantIso moment = Library.instantText moment.second.toInt moment.nano.toNat ∧
      instantString moment = .ok (Library.instantText moment.second.toInt moment.nano.toNat) ∧
      Php.instantText moment.second.toInt moment.nano.toNat =
        Library.instantText moment.second.toInt moment.nano.toNat

/-- The Go runtime reads each value back of the text it writes. -/
structure ReadsBack (check : TemporalKind → Text → Bool) : Prop where
  dates : ∀ date : Date, newDate date.year date.month date.day = .ok date →
    dateOfText check (dateString date) = .ok date
  times : ∀ time : Time, newTime time.hour time.minute time.second = .ok time →
    timeOfText check (timeString time) = .ok time
  dateTimes : ∀ both : DateTime, newDate both.date.year both.date.month both.date.day = .ok both.date →
    newTime both.time.hour both.time.minute both.time.second = .ok both.time →
    dateTimeOfText check (dateTimeString both) = .ok both
  instants : ∀ moment : Instant, newInstant moment.second moment.nano = .ok moment →
    ∃ text, instantString moment = .ok text ∧ instantOfText check text = .ok moment

theorem ok_ne_error {A : Type} {a : A} {fault : Fault} :
    (Except.ok a : Except Fault A) ≠ .error fault := fun h => by cases h

theorem library_civilDay_isSome (year month day : ℤ) :
    (Library.civilDay year month day).isSome = true ↔ HoldsDate year month day := by
  rcases library_civilDay year month day with ⟨h, heq⟩ | ⟨h, heq⟩
  · rw [heq]
    exact ⟨fun _ => h, fun _ => rfl⟩
  · rw [heq]
    exact ⟨fun hnone => absurd hnone Bool.false_ne_true, fun hholds => absurd hholds h⟩

theorem library_clockSecond_isSome (hour minute second : ℤ) :
    (Library.clockSecond hour minute second).isSome = true ↔ HoldsTime hour minute second := by
  rw [library_clockSecond]
  split_ifs with h
  · exact ⟨fun _ => h, fun _ => rfl⟩
  · exact ⟨fun hnone => absurd hnone Bool.false_ne_true, fun hholds => absurd hholds h⟩

theorem uint8_of {n : ℤ} (h : 0 ≤ n ∧ n ≤ 255) : ((uint8 n).toNat : ℤ) = n := by
  rw [uint8, UInt8.toNat_ofNat']
  omega

theorem date_words {year month day : ℤ} (h : HoldsDate year month day) :
    ∃ date : Date, date.numbers = (year, month, day) := by
  obtain ⟨⟨hmin, hmax⟩, hday⟩ := h
  have hbounds : MIN_YEAR = -999999999 ∧ MAX_YEAR = 999999999 := ⟨rfl, rfl⟩
  have hpos := hday.month_pos
  have hle := hday.month_le
  have hlow := hday.day_pos
  have hhigh := hday.day_bounds.1
  refine ⟨⟨Int32.ofInt year, uint8 month, uint8 day⟩, ?_⟩
  rw [Date.numbers, Int32.toInt_ofInt_of_le (by omega) (by omega), uint8_of (by omega),
    uint8_of (by omega)]

theorem time_words {hour minute second : ℤ} (h : HoldsTime hour minute second) :
    ∃ time : Time, time.numbers = (hour, minute, second) := by
  obtain ⟨hhour, hminute, hsecond⟩ := h
  refine ⟨⟨uint8 hour, uint8 minute, uint8 second⟩, ?_⟩
  rw [Time.numbers, uint8_of (by omega), uint8_of (by omega), uint8_of (by omega)]

theorem instant_words {second nano : ℤ} (h : HoldsInstant second nano) :
    ∃ moment : Instant, moment.numbers = (second, nano) := by
  obtain ⟨hsecond, hnano⟩ := h
  refine ⟨⟨Int64.ofInt second, UInt32.ofNat nano.toNat⟩, ?_⟩
  rw [Instant.numbers, Int64.toInt_ofInt_of_le (by omega) (by omega), UInt32.toNat_ofNat']
  congr 1
  omega

/-- What is made of the words that hold some numbers is made where the numbers are held. -/
theorem made_iff {N X R : Type} {numbers : X → N} {holds : N → Prop} {make good : X → R} {bad : R}
    (hne : ∀ x, good x ≠ bad)
    (hmade : ∀ x, (holds (numbers x) ∧ make x = good x) ∨ (¬ holds (numbers x) ∧ make x = bad))
    (hwords : ∀ n, holds n → ∃ x, numbers x = n) (n : N) :
    holds n ↔ ∃ x, numbers x = n ∧ make x = good x := by
  constructor
  · intro h
    obtain ⟨x, rfl⟩ := hwords n h
    rcases hmade x with ⟨-, hgood⟩ | ⟨hnot, -⟩
    · exact ⟨x, rfl, hgood⟩
    · exact absurd h hnot
  · rintro ⟨x, rfl, hgood⟩
    rcases hmade x with ⟨hholds, -⟩ | ⟨-, hbad⟩
    · exact hholds
    · exact absurd (hgood.symm.trans hbad) (hne x)

theorem sameValues : SameValues := by
  constructor
  · intro year month day
    rw [library_civilDay_isSome, php_isDay]
    have hwords : ∀ n : ℤ × ℤ × ℤ, HoldsDate n.1 n.2.1 n.2.2 → ∃ date : Date, date.numbers = n :=
      fun _ h => date_words h
    exact ⟨Iff.rfl,
      made_iff (fun _ => Option.some_ne_none _)
        (fun date : Date => rust_newDate date.year date.month date.day) hwords (year, month, day),
      made_iff (fun _ => ok_ne_error)
        (fun date : Date => newDate_eq date.year date.month date.day) hwords (year, month, day)⟩
  · intro hour minute second
    rw [library_clockSecond_isSome, php_isTime]
    have hwords : ∀ n : ℤ × ℤ × ℤ, HoldsTime n.1 n.2.1 n.2.2 → ∃ time : Time, time.numbers = n :=
      fun _ h => time_words h
    exact ⟨Iff.rfl,
      made_iff (fun _ => Option.some_ne_none _)
        (fun time : Time => rust_newTime time.hour time.minute time.second) hwords
        (hour, minute, second),
      made_iff (fun _ => ok_ne_error)
        (fun time : Time => newTime_eq time.hour time.minute time.second) hwords
        (hour, minute, second)⟩
  · intro second nano
    rw [library_instant, php_isMoment]
    have hwords : ∀ n : ℤ × ℤ, HoldsInstant n.1 n.2 → ∃ moment : Instant, moment.numbers = n :=
      fun _ h => instant_words h
    exact ⟨Iff.rfl,
      made_iff (fun _ => Option.some_ne_none _)
        (fun moment : Instant => rust_newInstant moment.second moment.nano) hwords (second, nano),
      made_iff (fun _ => ok_ne_error)
        (fun moment : Instant => newInstant_eq moment.second moment.nano) hwords (second, nano)⟩

theorem library_dateText_of {year month day count : ℤ}
    (h : Library.civilDay year month day = some count) :
    HoldsDate year month day ∧ Library.dateText count = isoDate year month day := by
  rcases library_civilDay year month day with ⟨hholds, heq⟩ | ⟨-, heq⟩
  · rw [heq] at h
    refine ⟨hholds, ?_⟩
    rw [← Option.some.inj h, library_dateText, civil_count hholds.2]
  · rw [heq] at h
    cases h

theorem library_timeText_of {hour minute second ofDay : ℤ}
    (h : Library.clockSecond hour minute second = some ofDay) :
    HoldsTime hour minute second ∧ (0 ≤ ofDay ∧ ofDay < 86400) ∧
      Library.timeText ofDay = isoTime hour minute second := by
  have hholds := (library_clockSecond_isSome hour minute second).mp (Option.isSome_of_eq_some h)
  have hmade : Library.clockSecond hour minute second =
      some (hour * 3600 + minute * 60 + second) := if_pos hholds
  obtain rfl := Option.some.inj (hmade.symm.trans h)
  refine ⟨hholds, ?_, library_timeText hholds⟩
  obtain ⟨hhour, hminute, hsecond⟩ := hholds
  omega

theorem rust_timeIso (time : Time) : Rust.timeIso time = timeString time := rfl

theorem sameTexts : SameTexts := by
  constructor
  · intro date day h
    obtain ⟨-, htext⟩ := library_dateText_of h
    rw [htext]
    exact ⟨rfl, dateText_eq _ _ _, rfl⟩
  · intro time ofDay h
    obtain ⟨-, -, htext⟩ := library_timeText_of h
    rw [htext, rust_timeIso, timeString_eq]
    exact ⟨rfl, rfl, rfl⟩
  · intro both second h
    rw [Library.datetimeOfParts, Option.bind_eq_bind, Option.bind_eq_some_iff] at h
    obtain ⟨day, hday, h⟩ := h
    rw [Option.bind_eq_some_iff] at h
    obtain ⟨ofDay, hofDay, h⟩ := h
    obtain rfl := Option.some.inj h
    obtain ⟨-, hdate⟩ := library_dateText_of hday
    obtain ⟨-, hbounds, htime⟩ := library_timeText_of hofDay
    have hper : SECONDS_PER_DAY = 86400 := rfl
    have hdays : (day * 86400 + ofDay) / 86400 = day := by omega
    have hleft : (day * 86400 + ofDay) % 86400 = ofDay := by omega
    rw [Library.dateTimeText, hper, hdays, hleft, hdate, htime, Rust.dateTimeIso, dateTimeString,
      rust_timeIso, timeString_eq, dateString, dateText_eq]
    exact ⟨rfl, rfl, rfl⟩
  · intro moment h
    have hholds := (library_instant _ _).mp h
    have hnano := hholds.2.1
    rw [library_instantText _ hnano, php_instantText _ hnano, rust_instantIso,
      instantString_eq hholds]
    exact ⟨rfl, rfl, rfl⟩

theorem readsBack {check : TemporalKind → Text → Bool} (h : Admits check) : ReadsBack check := by
  constructor
  · intro date hdate
    exact dateOfText_dateString h hdate
  · intro time htime
    rw [timeString_eq]
    exact timeOfText_isoTime h htime
  · intro both hdate htime
    exact dateTimeOfText_dateTimeString h hdate htime
  · intro moment hmoment
    rcases newInstant_eq moment.second moment.nano with ⟨hholds, -⟩ | ⟨-, hnone⟩
    · exact ⟨_, instantString_eq hholds, instantOfText_isoInstant h hmoment⟩
    · rw [hnone] at hmoment
      cases hmoment

/-- A host holds the values the library makes, writes each as the library does, and in Go reads it
back of what it wrote. -/
theorem the_four_calendars_agree : SameValues ∧ SameTexts ∧
    ∀ check : TemporalKind → Text → Bool, Admits check → ReadsBack check :=
  ⟨sameValues, sameTexts, fun _ => readsBack⟩

theorem iso_check_reads_back :
    ReadsBack fun kind text => @decide (Iso kind text) (Classical.propDecidable _) :=
  the_four_calendars_agree.2.2 _ fun _ _ hiso => @decide_eq_true _ (Classical.propDecidable _) hiso

end SoutherNative.Temporals.Go
