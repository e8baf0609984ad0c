import Mathlib
import SoutherNative.Temporals
import SoutherNative.GoTemporals
import SoutherNative.TemporalShifts

set_option autoImplicit false

/-!
# The library's runtime reads what it writes

Text is read by a reader of dates, times and instants that the runtime is given, which answers the
fields a text spells. What the runtime makes of the fields of a text it wrote is the value it wrote
the text of.
-/
namespace SoutherNative.Temporals.Library

open Calendar Machine

structure TemporalDate where
  year : ℤ
  month : ℤ
  day : ℤ

structure TemporalTime where
  hour : ℤ
  minute : ℤ
  second : ℤ
  nanosecond : Option ℤ

structure TemporalDateTime where
  date : TemporalDate
  time : TemporalTime

structure TemporalInstant where
  epochSecond : ℤ
  nanosecond : ℤ

/-- What reads a text, none where it is not written as the type is or names what no calendar has. -/
structure Notation199x where
  readDate : Text → Option TemporalDate
  readTime : Text → Option TemporalTime
  readDateTime : Text → Option TemporalDateTime
  readInstant : Text → Option TemporalInstant

inductive Refusal
  | Format
  | Fraction
  deriving DecidableEq

section Parse

variable (reader : Notation199x)

def dayOf (date : TemporalDate) : ℤ := daysFromCivil date.year date.month date.day

def localTime (time : TemporalTime) : Except Refusal ℤ :=
  if time.nanosecond.isSome then .error .Fraction
  else .ok (time.hour * 3600 + time.minute * 60 + time.second)

def parseDate (text : Text) : Option ℤ := (reader.readDate text).map dayOf

def parseTime (text : Text) : Except Refusal ℤ :=
  match reader.readTime text with
  | none => .error .Format
  | some time => localTime time

def parseDateTime (text : Text) : Except Refusal ℤ :=
  match reader.readDateTime text with
  | none => .error .Format
  | some read => do
    let ofDay ← localTime read.time
    return dayOf read.date * SECONDS_PER_DAY + ofDay

def parseInstant (text : Text) : Option (ℤ × ℤ) :=
  (reader.readInstant text).map fun read => (read.epochSecond, read.nanosecond)

end Parse

inductive Fraction : Text → ℤ → Prop
  | none : Fraction [] 0
  | digits {digits : Text} : (∀ c ∈ digits, c.isDigit = true) → 1 ≤ digits.length →
    digits.length ≤ 9 →
    Fraction ('.' :: digits) (Nat.ofDigitChars 10 digits 0 * 10 ^ (9 - digits.length))

def momentOf (year month day hour minute second : ℤ) : ℤ :=
  count year month day * 86400 + hour * 3600 + minute * 60 + second

/-- A reader reads the text of a date, of a time, of the two and of an instant as its fields. -/
structure Reads (reader : Notation199x) : Prop where
  date {year month day : ℤ} : HoldsDate year month day →
    reader.readDate (isoDate year month day) = some ⟨year, month, day⟩
  time {hour minute second : ℤ} : HoldsTime hour minute second →
    reader.readTime (isoTime hour minute second) = some ⟨hour, minute, second, none⟩
  dateTime {year month day hour minute second : ℤ} : HoldsDate year month day →
    HoldsTime hour minute second →
    reader.readDateTime (isoDate year month day ++ 'T' :: isoTime hour minute second) =
      some ⟨⟨year, month, day⟩, ⟨hour, minute, second, none⟩⟩
  instant {year month day hour minute second nano : ℤ} {fraction : Text} : IsDay year month day →
    HoldsTime hour minute second → Fraction fraction nano →
    HoldsInstant (momentOf year month day hour minute second) nano →
    reader.readInstant (isoDate year month day ++ 'T' :: isoClock hour minute second ++
      fraction ++ ['Z']) = some ⟨momentOf year month day hour minute second, nano⟩

/-- A `Time` the runtime holds: a second of a day. -/
@[ext]
structure OfDay where
  second : ℤ
  min : 0 ≤ second
  max : second < 86400

/-- An `Instant` the runtime holds: a second of UTC and a nanosecond of it. -/
@[ext]
structure Moment where
  second : ℤ
  nano : ℤ
  holds : HoldsInstant second nano

theorem day_holds (day : Day) :
    HoldsDate day.civil.year day.civil.month day.civil.date := ⟨day.civil.year_bounds, day.civil.isDay⟩

theorem dateText_day (day : Day) :
    dateText day.day = isoDate day.civil.year day.civil.month day.civil.date := library_dateText _

theorem dayOf_civil (day : Day) :
    dayOf ⟨day.civil.year, day.civil.month, day.civil.date⟩ = day.day := by
  rw [dayOf, library_daysFromCivil _ day.civil.month_bounds.1, day.count_civil]

theorem OfDay.holds (time : OfDay) :
    HoldsTime (time.second / 3600) (time.second % 3600 / 60) (time.second % 60) := by
  have hmin := time.min
  have hmax := time.max
  refine ⟨?_, ?_, ?_⟩ <;> omega

theorem OfDay.fields (time : OfDay) :
    time.second / 3600 * 3600 + time.second % 3600 / 60 * 60 + time.second % 60 = time.second := by
  omega

theorem timeText_ofDay (time : OfDay) : timeText time.second =
    isoTime (time.second / 3600) (time.second % 3600 / 60) (time.second % 60) := by
  rw [← library_timeText time.holds, time.fields]

def localDay (second : Local) : Day where
  day := second.second / SECONDS_PER_DAY
  min := by
    have hmin := second.min
    rw [MIN_LOCAL] at hmin
    exact (Int.le_ediv_iff_mul_le (by decide)).mpr hmin
  max := by
    have hmax := second.max
    rw [MAX_LOCAL, SECONDS_PER_DAY] at hmax
    rw [SECONDS_PER_DAY]
    omega

def localTimeOf (second : ℤ) : OfDay where
  second := second % SECONDS_PER_DAY
  min := (ofDay_bounds second).1
  max := (ofDay_bounds second).2

/-- The nanoseconds an instant writes are a fraction of three digits, of six or of nine. -/
theorem fraction_isoFraction {nano : ℤ} (h : 0 ≤ nano ∧ nano < 1000000000) :
    Fraction (isoFraction nano) nano := by
  have hspells : ∀ {width : ℕ} {n : ℤ}, 1 ≤ width ∧ width ≤ 9 → 0 ≤ n → n.natAbs < 10 ^ width →
      n * 10 ^ (9 - width) = nano → Fraction ('.' :: padded width n) nano := by
    intro width n hwidth hn hlt hnano
    obtain ⟨-, hdigits, hvalue⟩ := Go.padded_digits width hn
    have hlength := Go.padded_length hwidth.1 hn hlt
    have hfraction := Fraction.digits hdigits (by omega) (by omega)
    rw [hlength, hvalue, hnano] at hfraction
    exact hfraction
  rw [isoFraction]
  split_ifs with hzero hmillion hthousand
  · rw [hzero]
    exact .none
  · exact @hspells 3 _ (by decide) (by omega) (by norm_num; omega) (by norm_num; omega)
  · exact @hspells 6 _ (by decide) (by omega) (by norm_num; omega) (by norm_num; omega)
  · exact @hspells 9 _ (by decide) (by omega) (by norm_num; omega) (by norm_num)

theorem momentOf_civil (second : ℤ) :
    momentOf (civil (second / 86400)).1 (civil (second / 86400)).2.1 (civil (second / 86400)).2.2
      (second % 86400 / 3600) (second % 86400 % 3600 / 60) (second % 86400 % 60) = second := by
  rw [momentOf, (civil_spec (second / 86400)).2]
  omega

section Back

variable {reader : Notation199x}

theorem parseDate_dateText (h : Reads reader) (day : Day) :
    parseDate reader (dateText day.day) = some day.day := by
  rw [parseDate, dateText_day, h.date (day_holds day), Option.map_some, dayOf_civil]

theorem localTime_ofDay (time : OfDay) :
    localTime ⟨time.second / 3600, time.second % 3600 / 60, time.second % 60, none⟩ =
      .ok time.second := by
  exact congrArg Except.ok time.fields

theorem parseTime_timeText (h : Reads reader) (time : OfDay) :
    parseTime reader (timeText time.second) = .ok time.second := by
  rw [parseTime, timeText_ofDay, h.time time.holds]
  exact localTime_ofDay time

theorem parseDateTime_dateTimeText (h : Reads reader) (second : Local) :
    parseDateTime reader (dateTimeText second.second) = .ok second.second := by
  have hdate := dateText_day (localDay second)
  have htime := timeText_ofDay (localTimeOf second.second)
  have hread := h.dateTime (day_holds (localDay second)) (localTimeOf second.second).holds
  rw [← hdate, ← htime] at hread
  have hday := dayOf_civil (localDay second)
  have hclock := localTime_ofDay (localTimeOf second.second)
  have hsum : second.second / SECONDS_PER_DAY * SECONDS_PER_DAY +
      second.second % SECONDS_PER_DAY = second.second := Int.ediv_mul_add_emod _ _
  rw [parseDateTime, dateTimeText]
  simp only [localDay, localTimeOf] at hread hday hclock
  rw [hread]
  dsimp only
  rw [hclock, hday]
  exact congrArg Except.ok hsum

theorem parseInstant_instantText (h : Reads reader) (moment : Moment) :
    parseInstant reader (instantText moment.second moment.nano) =
      some (moment.second, moment.nano) := by
  obtain ⟨second, nano, hholds⟩ := moment
  have hmoment := momentOf_civil second
  have hread := h.instant (civil_spec (second / 86400)).1 (Go.holdsTime_of second)
    (fraction_isoFraction hholds.2) (by rw [hmoment]; exact hholds)
  rw [hmoment] at hread
  rw [parseInstant, library_instantText second hholds.2.1, isoInstant, hread]
  rfl

end Back

/-- A text is written of one value where it is read back as the value it was written of. -/
theorem injective_of_reads {V T N R : Type} {number : V → N} {text : N → T} {parse : T → R}
    {answer : N → R} (hnumber : Function.Injective number) (hanswer : Function.Injective answer)
    (h : ∀ value, parse (text (number value)) = answer (number value)) :
    Function.Injective fun value => text (number value) := by
  intro one other htext
  have hparse := congrArg parse htext
  dsimp only at hparse
  rw [h one, h other] at hparse
  exact hnumber (hanswer hparse)

/-- What the runtime writes of a date, a time, a date and time or an instant is read back as it, and
is written of no other. -/
theorem texts_are_read_back {reader : Notation199x} (h : Reads reader) :
    ((∀ day : Day, parseDate reader (dateText day.day) = some day.day) ∧
      Function.Injective fun day : Day => dateText day.day) ∧
    ((∀ time : OfDay, parseTime reader (timeText time.second) = .ok time.second) ∧
      Function.Injective fun time : OfDay => timeText time.second) ∧
    ((∀ second : Local, parseDateTime reader (dateTimeText second.second) = .ok second.second) ∧
      Function.Injective fun second : Local => dateTimeText second.second) ∧
    ((∀ moment : Moment, parseInstant reader (instantText moment.second moment.nano) =
        some (moment.second, moment.nano)) ∧
      Function.Injective fun moment : Moment => instantText moment.second moment.nano) := by
  refine ⟨⟨parseDate_dateText h, ?_⟩, ⟨parseTime_timeText h, ?_⟩,
    ⟨parseDateTime_dateTimeText h, ?_⟩, parseInstant_instantText h, ?_⟩
  · exact injective_of_reads (fun _ _ => Day.ext) (Option.some_injective _) (parseDate_dateText h)
  · exact injective_of_reads (fun _ _ => OfDay.ext) (fun _ _ => Except.ok.inj)
      (parseTime_timeText h)
  · exact injective_of_reads (fun _ _ => Local.ext) (fun _ _ => Except.ok.inj)
      (parseDateTime_dateTimeText h)
  · apply @injective_of_reads _ _ _ _ (fun moment : Moment => (moment.second, moment.nano))
      (fun numbers => instantText numbers.1 numbers.2) (parseInstant reader) some ?_
      (Option.some_injective _) (parseInstant_instantText h)
    intro one other hnumbers
    exact Moment.ext (Prod.mk.inj hnumbers).1 (Prod.mk.inj hnumbers).2

def clockRead (text : Text) : Option TemporalTime :=
  match Go.clockFields ((Go.cut '.' text).1.splitOn ':') (Go.cut '.' text).2 with
  | .error _ => none
  | .ok (hour, minute, second, nano) =>
    some ⟨hour, minute, second, if (Go.cut '.' text).2 = [] then none else some nano.toNat⟩

def dateRead (text : Text) : Option TemporalDate :=
  match Go.civilFields text with
  | .error _ => none
  | .ok (year, month, day) => some ⟨year, month, day⟩

def fieldsRead : Notation199x where
  readDate := dateRead
  readTime := clockRead
  readDateTime := fun text => do
    let date ← dateRead (Go.cut 'T' text).1
    let time ← clockRead (Go.cut 'T' text).2
    return ⟨date, time⟩
  readInstant := fun text => do
    let date ← dateRead (Go.cut 'T' (Go.trimSuffix 'Z' text)).1
    let time ← clockRead (Go.cut 'T' (Go.trimSuffix 'Z' text)).2
    return ⟨momentOf date.year date.month date.day time.hour time.minute time.second,
      time.nanosecond.getD 0⟩

theorem dateRead_isoDate {year month day : ℤ} (hyear : -1000000001 ≤ year ∧ year ≤ 1000000001)
    (hday : IsDay year month day) : dateRead (isoDate year month day) = some ⟨year, month, day⟩ := by
  rw [dateRead, Go.civilFields_isoDate hyear ⟨hday.month_pos, hday.month_le⟩
    ⟨hday.day_pos, hday.day_bounds.1⟩]

theorem clockRead_isoTime {hour minute second : ℤ} (h : HoldsTime hour minute second) :
    clockRead (isoTime hour minute second) = some ⟨hour, minute, second, none⟩ := by
  have hcut := Go.cut_none (Go.not_mem_isoTime h (show '.'.isDigit = false from rfl) (by decide))
  rw [clockRead, hcut, Go.clockFields_isoTime h]
  rfl

theorem fraction_read {fraction : Text} {nano : ℤ} (h : Fraction fraction nano) {clock : Text}
    (hclock : '.' ∉ clock) : ∃ digits, Go.cut '.' (clock ++ fraction) = (clock, digits) ∧
      ((Go.readNano digits).toNat : ℤ) = nano ∧ (digits = [] → nano = 0) := by
  rcases h with _ | ⟨hdigits, hpos, hle⟩
  · rw [List.append_nil]
    exact ⟨[], Go.cut_none hclock, rfl, fun _ => rfl⟩
  · rename_i digits
    refine ⟨digits, Go.cut_append hclock, ?_, fun hnil => ?_⟩
    · have hne : digits ≠ [] := List.ne_nil_of_length_pos hpos
      have hread := Go.parseUint32_filled hdigits hne hle
      have hmin : Go.parseUint32 ((digits ++ List.replicate 9 '0').take 9) ≤ 4294967295 := by
        rw [Go.parseUint32]
        split_ifs <;> omega
      rw [Go.readNano, if_pos hne, UInt32.toNat_ofNat_of_lt' (Nat.lt_succ_of_le hmin), hread]
      push_cast
      rfl
    · rw [hnil] at hpos
      exact absurd hpos (by decide)

theorem clockRead_isoClock {hour minute second nano : ℤ} {fraction : Text}
    (h : HoldsTime hour minute second) (hfraction : Fraction fraction nano) :
    ∃ read, clockRead (isoClock hour minute second ++ fraction) =
      some ⟨hour, minute, second, read⟩ ∧ read.getD 0 = nano := by
  obtain ⟨digits, hcut, hnano, hnone⟩ := fraction_read hfraction
    (Go.not_mem_isoClock h (show '.'.isDigit = false from rfl) (by decide))
  refine ⟨if digits = [] then none else some (Go.readNano digits).toNat, ?_, ?_⟩
  · rw [clockRead, hcut, Go.clockFields_isoClock h]
  · split_ifs with hnil
    · exact (hnone hnil).symm
    · exact hnano

/-- The year of a moment that an instant holds is one that a year's text is read of. -/
theorem year_of_moment {year month day hour minute second : ℤ} (hday : IsDay year month day)
    (htime : HoldsTime hour minute second)
    (h : -31557014167219200 ≤ momentOf year month day hour minute second ∧
      momentOf year month day hour minute second ≤ 31556889864403199) :
    -1000000000 ≤ year ∧ year ≤ 1000000000 := by
  have hyear := Go.instant_year h
  have hdays : momentOf year month day hour minute second / 86400 = count year month day := by
    obtain ⟨hhour, hminute, hsecond⟩ := htime
    rw [momentOf]
    omega
  rw [hdays, civil_count hday] at hyear
  exact hyear

theorem fieldsRead_reads : Reads fieldsRead where
  date h := by
    have hyear := h.1
    rw [MIN_YEAR, MAX_YEAR] at hyear
    exact dateRead_isoDate (by omega) h.2
  time h := clockRead_isoTime h
  dateTime hdate htime := by
    have hyear := hdate.1
    rw [MIN_YEAR, MAX_YEAR] at hyear
    simp only [fieldsRead, Go.cut_append (Go.not_mem_isoDate (.inl hdate)),
      dateRead_isoDate ⟨by omega, by omega⟩ hdate.2, clockRead_isoTime htime]
    rfl
  instant hday htime hfraction hholds := by
    have hyear := year_of_moment hday htime hholds.1
    obtain ⟨read, hclock, hnano⟩ := clockRead_isoClock htime hfraction
    simp only [fieldsRead, Go.trimSuffix_append]
    simp only [List.append_assoc, List.cons_append, Go.cut_append (Go.not_mem_isoDate (.inr hday)),
      dateRead_isoDate ⟨by omega, by omega⟩ hday, hclock]
    rw [← hnano]
    rfl

/-- The fifth second of a day is written and read back, and the nanosecond before the epoch. -/
theorem fieldsRead_back :
    parseTime fieldsRead (timeText 5) = .ok 5 ∧
      parseInstant fieldsRead (instantText (-1) 999999999) = some (-1, 999999999) :=
  ⟨(texts_are_read_back fieldsRead_reads).2.1.1 ⟨5, by decide, by decide⟩,
    (texts_are_read_back fieldsRead_reads).2.2.2.1 ⟨-1, 999999999, by decide, by decide⟩⟩

end SoutherNative.Temporals.Library
