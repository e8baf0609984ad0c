import Mathlib.Tactic.IntervalCases
import Mathlib.Tactic.SplitIfs
import Mathlib.Tactic.Linarith

set_option autoImplicit false

/-!
# The proleptic calendar

Days counted from a fixed one and the year, the month and the day each names. Four hundred years are
an era of 146097 days, in which a day has a century, a leap cycle, a year of the cycle and a place
in that year, which is counted from March so that a leap day is the last of it.
-/
namespace SoutherNative.Calendar

def leap (year : ℤ) : Bool := year % 4 = 0 && (year % 100 ≠ 0 || year % 400 = 0)

def length (year month : ℤ) : ℤ :=
  if month = 2 then (if leap year then 29 else 28)
  else if month = 4 ∨ month = 6 ∨ month = 9 ∨ month = 11 then 30
  else 31

structure IsDay (year month day : ℤ) : Prop where
  month_pos : 1 ≤ month
  month_le : month ≤ 12
  day_pos : 1 ≤ day
  day_le : day ≤ length year month

def count (year month day : ℤ) : ℤ :=
  let year := if month ≤ 2 then year - 1 else year
  let era := year / 400
  let yearOfEra := year - era * 400
  let monthFromMarch := if month > 2 then month - 3 else month + 9
  let dayOfYear := (153 * monthFromMarch + 2) / 5 + day - 1
  let dayOfEra := yearOfEra * 365 + yearOfEra / 4 - yearOfEra / 100 + dayOfYear
  era * 146097 + dayOfEra - 719468

def fromMarch (year dayOfYear : ℤ) : ℤ × ℤ × ℤ :=
  let monthFromMarch := (5 * dayOfYear + 2) / 153
  let day := dayOfYear - (153 * monthFromMarch + 2) / 5 + 1
  let month := if monthFromMarch < 10 then monthFromMarch + 3 else monthFromMarch - 9
  (if month ≤ 2 then year + 1 else year, month, day)

def civil (days : ℤ) : ℤ × ℤ × ℤ :=
  let era := (days + 719468) / 146097
  let dayOfEra := days + 719468 - era * 146097
  let yearOfEra := (dayOfEra - dayOfEra / 1460 + dayOfEra / 36524 - dayOfEra / 146096) / 365
  let dayOfYear := dayOfEra - (365 * yearOfEra + yearOfEra / 4 - yearOfEra / 100)
  fromMarch (yearOfEra + era * 400) dayOfYear

/-- Where a day of an era stands: its century, its leap cycle, its year of the cycle and its place in
the year. The last place is a leap day's. -/
structure Placed (dayOfEra century cycle year dayOfYear : ℤ) : Prop where
  century_bounds : 0 ≤ century ∧ century ≤ 3
  cycle_bounds : 0 ≤ cycle ∧ cycle ≤ 24
  year_bounds : 0 ≤ year ∧ year ≤ 3
  day_bounds : 0 ≤ dayOfYear ∧ dayOfYear ≤ 365
  last : dayOfYear = 365 → year = 3 ∧ (cycle < 24 ∨ century = 3)
  stands : dayOfEra = 36524 * century + 1461 * cycle + 365 * year + dayOfYear

theorem quotient_of {n k : ℤ} (rest d : ℤ) (hd : 0 < d) (hrest : 0 ≤ rest ∧ rest < d)
    (h : n = d * k + rest) : n / d = k := by
  subst h
  rw [add_comm, Int.add_mul_ediv_left _ _ hd.ne', Int.ediv_eq_zero_of_lt hrest.1 hrest.2, zero_add]

theorem placed_exists {dayOfEra : ℤ} (h : 0 ≤ dayOfEra ∧ dayOfEra < 146097) :
    ∃ century cycle year dayOfYear, Placed dayOfEra century cycle year dayOfYear := by
  by_cases hlast : dayOfEra = 146096
  · exact ⟨3, 24, 3, 365, by decide, by decide, by decide, by decide, by decide, hlast⟩
  · have hrest := Int.emod_nonneg dayOfEra (show (36524 : ℤ) ≠ 0 by decide)
    have hrest' := Int.emod_lt_of_pos dayOfEra (show (0 : ℤ) < 36524 by decide)
    have hstands := Int.mul_ediv_add_emod dayOfEra 36524
    generalize dayOfEra / 36524 = century at hstands
    generalize dayOfEra % 36524 = rest at hrest hrest' hstands
    have hcycle := Int.emod_nonneg rest (show (1461 : ℤ) ≠ 0 by decide)
    have hcycle' := Int.emod_lt_of_pos rest (show (0 : ℤ) < 1461 by decide)
    have hcycles := Int.mul_ediv_add_emod rest 1461
    generalize rest / 1461 = cycle at hcycles
    generalize rest % 1461 = left at hcycle hcycle' hcycles
    by_cases hleap : left = 1460
    · exact ⟨century, cycle, 3, 365, by omega, by omega, by decide, by decide, by omega, by omega⟩
    · refine ⟨century, cycle, left / 365, left % 365, by omega, by omega, by omega, by omega, ?_, ?_⟩
      · omega
      · omega

theorem century_of {dayOfEra century rest : ℤ} (hcentury : 0 ≤ century ∧ century ≤ 3)
    (hrest : 0 ≤ rest ∧ rest ≤ 36524) (hlast : rest = 36524 → century = 3)
    (h : dayOfEra = 36524 * century + rest) :
    dayOfEra / 36524 - dayOfEra / 146096 = century := by
  subst h
  obtain ⟨hlow, hhigh⟩ := hcentury
  interval_cases century <;> omega

/-- The year of the era is worked out from the day of it. -/
theorem Placed.yearOfEra {dayOfEra century cycle year dayOfYear : ℤ}
    (h : Placed dayOfEra century cycle year dayOfYear) :
    (dayOfEra - dayOfEra / 1460 + dayOfEra / 36524 - dayOfEra / 146096) / 365 =
      100 * century + 4 * cycle + year := by
  obtain ⟨hcentury, hcycle, hyear, hday, hlast, hstands⟩ := h
  have hleap : dayOfYear ≤ 364 ∨ dayOfYear = 365 ∧ year = 3 ∧ (cycle < 24 ∨ century = 3) := by
    rcases hday.2.lt_or_eq with hlt | heq
    · exact .inl (by omega)
    · exact .inr ⟨heq, hlast heq⟩
  clear hlast
  have hrest : 1461 * cycle + 365 * year + dayOfYear ≤ 36524 ∧
      (1461 * cycle + 365 * year + dayOfYear = 36524 → century = 3) := by omega
  have hcenturies := century_of hcentury ⟨by omega, hrest.1⟩ hrest.2
    (show dayOfEra = 36524 * century + (1461 * cycle + 365 * year + dayOfYear) by omega)
  -- the fourth years' days past a cycle of 1460 are one or none
  by_cases hpast : 365 * year + dayOfYear + 24 * century + cycle < 1460
  · have hcycles : dayOfEra / 1460 = 25 * century + cycle :=
      quotient_of (365 * year + dayOfYear + 24 * century + cycle) 1460 (by decide)
        ⟨by omega, hpast⟩ (by omega)
    exact quotient_of dayOfYear 365 (by decide) ⟨hday.1, by omega⟩ (by rw [hcycles]; linarith)
  · have hcycles : dayOfEra / 1460 = 25 * century + cycle + 1 :=
      quotient_of (365 * year + dayOfYear + 24 * century + cycle - 1460) 1460 (by decide)
        ⟨by omega, by omega⟩ (by omega)
    exact quotient_of (dayOfYear - 1) 365 (by decide) ⟨by omega, by omega⟩
      (by rw [hcycles]; linarith)

theorem Placed.inEra {dayOfEra century cycle year dayOfYear : ℤ}
    (h : Placed dayOfEra century cycle year dayOfYear) : 0 ≤ dayOfEra ∧ dayOfEra < 146097 := by
  obtain ⟨hcentury, hcycle, hyear, hday, hlast, hstands⟩ := h
  omega

/-- The leap days before a year of an era. -/
theorem leaps_of {century cycle year : ℤ} (hcycle : 0 ≤ cycle ∧ cycle ≤ 24)
    (hyear : 0 ≤ year ∧ year ≤ 3) :
    (100 * century + 4 * cycle + year) / 4 = 25 * century + cycle ∧
      (100 * century + 4 * cycle + year) / 100 = century := by
  omega

/-- A day names its place in its year from March. -/
theorem Placed.civil {days era dayOfEra century cycle year dayOfYear : ℤ}
    (h : Placed dayOfEra century cycle year dayOfYear)
    (hdays : days + 719468 = era * 146097 + dayOfEra) :
    civil days = fromMarch (100 * century + 4 * cycle + year + era * 400) dayOfYear := by
  have hin := h.inEra
  have hera : (days + 719468) / 146097 = era :=
    quotient_of dayOfEra 146097 (by decide) hin (by rw [hdays, mul_comm])
  have hday : days + 719468 - era * 146097 = dayOfEra := by omega
  obtain ⟨hfour, hhundred⟩ := @leaps_of century cycle year h.cycle_bounds h.year_bounds
  have hplace : dayOfEra - (365 * (100 * century + 4 * cycle + year) +
      (25 * century + cycle) - century) = dayOfYear := by
    have hstands := h.stands
    linarith
  simp only [Calendar.civil, hera, hday, h.yearOfEra, hfour, hhundred, hplace]

def sinceMarch (month : ℤ) : ℤ := if month > 2 then month - 3 else month + 9

def placeOf (month day : ℤ) : ℤ := (153 * sinceMarch month + 2) / 5 + day - 1

theorem IsDay.day_bounds {year month day : ℤ} (h : IsDay year month day) :
    day ≤ 31 ∧ (month = 2 → day ≤ 29) ∧
      (month = 4 ∨ month = 6 ∨ month = 9 ∨ month = 11 → day ≤ 30) := by
  have hlength := h.day_le
  rw [length] at hlength
  split_ifs at hlength <;> omega

theorem month_of_place {year month day : ℤ} (h : IsDay year month day) :
    (5 * placeOf month day + 2) / 153 = sinceMarch month := by
  obtain ⟨h31, hfebruary, h30⟩ := h.day_bounds
  obtain ⟨hpos, hle, hday, -⟩ := h
  rw [placeOf, sinceMarch]
  interval_cases month <;> norm_num at hfebruary h30 ⊢ <;> omega

theorem fromMarch_placeOf {year month day : ℤ} (h : IsDay year month day) :
    fromMarch (if month ≤ 2 then year - 1 else year) (placeOf month day) = (year, month, day) := by
  have hmonth := month_of_place h
  have hpos := h.month_pos
  have hle := h.month_le
  simp only [fromMarch, hmonth]
  rw [placeOf, sinceMarch]
  split_ifs <;> simp only [Prod.mk.injEq, true_and] <;> omega

theorem IsDay.place_bounds {year month day : ℤ} (h : IsDay year month day) :
    (0 ≤ placeOf month day ∧ placeOf month day ≤ 365) ∧
      (placeOf month day = 365 → month = 2 ∧ day = 29) := by
  obtain ⟨h31, hfebruary, h30⟩ := h.day_bounds
  obtain ⟨hpos, hle, hday, -⟩ := h
  rw [placeOf, sinceMarch]
  interval_cases month <;> norm_num at hfebruary h30 ⊢ <;> omega

theorem leap_iff (year : ℤ) :
    leap year = true ↔ year % 4 = 0 ∧ (year % 100 ≠ 0 ∨ year % 400 = 0) := by
  simp only [leap, Bool.and_eq_true, Bool.or_eq_true, decide_eq_true_eq]

def marchYear (year month : ℤ) : ℤ := if month ≤ 2 then year - 1 else year

theorem count_eq (year month day : ℤ) :
    count year month day + 719468 = marchYear year month / 400 * 146097 +
      ((marchYear year month - marchYear year month / 400 * 400) * 365 +
        (marchYear year month - marchYear year month / 400 * 400) / 4 -
        (marchYear year month - marchYear year month / 400 * 400) / 100 + placeOf month day) := by
  rw [count, placeOf, sinceMarch, marchYear]
  exact sub_add_cancel _ _

theorem count_placed {year month day : ℤ} (h : IsDay year month day) :
    ∃ era dayOfEra century cycle ofCycle,
      Placed dayOfEra century cycle ofCycle (placeOf month day) ∧
      count year month day + 719468 = era * 146097 + dayOfEra ∧
      100 * century + 4 * cycle + ofCycle + era * 400 = marchYear year month := by
  obtain ⟨hbounds, hlast⟩ := h.place_bounds
  have hleap : placeOf month day = 365 → leap (marchYear year month + 1) = true := by
    intro hplace
    obtain ⟨rfl, rfl⟩ := hlast hplace
    have hlength := h.day_le
    rw [length, if_pos rfl] at hlength
    rw [marchYear, if_pos (by decide), sub_add_cancel]
    by_contra hnot
    rw [if_neg hnot] at hlength
    omega
  rw [leap_iff] at hleap
  have hcount := count_eq year month day
  obtain ⟨yearOfEra, hyearOfEra⟩ : ∃ yearOfEra, yearOfEra =
      marchYear year month - marchYear year month / 400 * 400 := ⟨_, rfl⟩
  rw [← hyearOfEra] at hcount
  have hera : 0 ≤ yearOfEra ∧ yearOfEra < 400 := by omega
  refine ⟨_, _, yearOfEra / 100, yearOfEra % 100 / 4, yearOfEra % 4, ?_, hcount, by omega⟩
  constructor
  · omega
  · omega
  · omega
  · exact hbounds
  · intro hplace
    have hyear := hleap hplace
    omega
  · omega

theorem fromMarch_spec {year dayOfYear : ℤ} (h : 0 ≤ dayOfYear ∧ dayOfYear ≤ 365)
    (hleap : dayOfYear = 365 → leap (year + 1) = true) :
    IsDay (fromMarch year dayOfYear).1 (fromMarch year dayOfYear).2.1
        (fromMarch year dayOfYear).2.2 ∧
      placeOf (fromMarch year dayOfYear).2.1 (fromMarch year dayOfYear).2.2 = dayOfYear ∧
      marchYear (fromMarch year dayOfYear).1 (fromMarch year dayOfYear).2.1 = year := by
  obtain ⟨month, hmonth⟩ : ∃ month, month = (5 * dayOfYear + 2) / 153 := ⟨_, rfl⟩
  have hbounds : 0 ≤ month ∧ month ≤ 11 := by omega
  have hplace : 153 * month ≤ 5 * dayOfYear + 2 ∧ 5 * dayOfYear + 2 < 153 * month + 153 := by omega
  simp only [fromMarch, ← hmonth]
  obtain ⟨hlow, hhigh⟩ := hbounds
  clear hmonth
  have hfebruary : month = 11 → dayOfYear - 337 + 1 ≤ 28 ∨ leap (year + 1) = true := by
    intro _
    rcases h.2.lt_or_eq with hlt | heq
    · exact .inl (by omega)
    · exact .inr (hleap heq)
  clear hleap
  refine ⟨⟨?_, ?_, ?_, ?_⟩, ?_, ?_⟩
  · split_ifs <;> omega
  · split_ifs <;> omega
  · omega
  · rw [length]
    interval_cases month
    all_goals norm_num at hfebruary hplace ⊢
    all_goals try omega
    -- February, whose last day is a leap year's
    rcases hfebruary with hshort | hlong
    · split_ifs <;> omega
    · rw [if_pos hlong]
      omega
  · rw [placeOf, sinceMarch]
    split_ifs <;> omega
  · rw [marchYear]
    split_ifs <;> omega

/-- A day is what the count of it names. -/
theorem civil_count {year month day : ℤ} (h : IsDay year month day) :
    civil (count year month day) = (year, month, day) := by
  obtain ⟨era, dayOfEra, century, cycle, ofCycle, hplaced, hcount, hyear⟩ := count_placed h
  rw [hplaced.civil hcount, hyear, marchYear, fromMarch_placeOf h]

/-- A count names a day the calendar has, and the count of that day is the count. -/
theorem civil_spec (days : ℤ) :
    IsDay (civil days).1 (civil days).2.1 (civil days).2.2 ∧
      count (civil days).1 (civil days).2.1 (civil days).2.2 = days := by
  have hnonneg := Int.emod_nonneg (days + 719468) (show (146097 : ℤ) ≠ 0 by decide)
  have hlt := Int.emod_lt_of_pos (days + 719468) (show (0 : ℤ) < 146097 by decide)
  have hstands := Int.mul_ediv_add_emod (days + 719468) 146097
  obtain ⟨era, hera⟩ : ∃ era, era = (days + 719468) / 146097 := ⟨_, rfl⟩
  obtain ⟨dayOfEra, hdayOfEra⟩ : ∃ dayOfEra, dayOfEra = (days + 719468) % 146097 := ⟨_, rfl⟩
  rw [← hera, ← hdayOfEra] at hstands
  rw [← hdayOfEra] at hnonneg hlt
  clear hera hdayOfEra
  obtain ⟨century, cycle, year, dayOfYear, hplaced⟩ := placed_exists ⟨hnonneg, hlt⟩
  have hcivil := @Placed.civil days era _ _ _ _ _ hplaced (by omega)
  have hleap : dayOfYear = 365 →
      leap (100 * century + 4 * cycle + year + era * 400 + 1) = true := by
    intro hplace
    have hlast := hplaced.last hplace
    have hcycle := hplaced.cycle_bounds
    rw [leap_iff]
    omega
  obtain ⟨hday, hplace, hyear⟩ := fromMarch_spec hplaced.day_bounds hleap
  rw [← hcivil] at hday hplace hyear
  refine ⟨hday, ?_⟩
  have hcount := count_eq (civil days).1 (civil days).2.1 (civil days).2.2
  have hin : 0 ≤ 100 * century + 4 * cycle + year ∧ 100 * century + 4 * cycle + year < 400 := by
    have hcentury := hplaced.century_bounds
    have hcycle := hplaced.cycle_bounds
    have hyears := hplaced.year_bounds
    omega
  have hera : (100 * century + 4 * cycle + year + era * 400) / 400 = era :=
    quotient_of (100 * century + 4 * cycle + year) 400 (by decide) hin (by omega)
  obtain ⟨hfour, hhundred⟩ :=
    @leaps_of century cycle year hplaced.cycle_bounds hplaced.year_bounds
  rw [hyear, hplace, hera, add_sub_cancel_right, hfour, hhundred] at hcount
  have hdays := hplaced.stands
  linarith

def before (year : ℤ) : ℤ := 365 * year + year / 4 - year / 100 + year / 400

theorem count_before (year month day : ℤ) :
    count year month day = before (marchYear year month) + placeOf month day - 719468 := by
  have hcount := count_eq year month day
  rw [before]
  omega

theorem before_succ (year : ℤ) : before year + 365 ≤ before (year + 1) := by
  rw [before, before]
  omega

theorem before_mono {year later : ℤ} (h : year ≤ later) : before year ≤ before later := by
  rw [before, before]
  omega

theorem IsDay.place_split {year month day : ℤ} (h : IsDay year month day) :
    (month ≤ 2 ∧ 306 ≤ placeOf month day) ∨ (2 < month ∧ placeOf month day ≤ 305) := by
  obtain ⟨h31, hfebruary, h30⟩ := h.day_bounds
  obtain ⟨hpos, hle, hday, -⟩ := h
  rw [placeOf, sinceMarch]
  interval_cases month <;> norm_num at hfebruary h30 ⊢ <;> omega

/-- A day no earlier than a year's first is in no earlier year. -/
theorem year_of_first {first year month day : ℤ} (h : IsDay year month day)
    (hcount : count first 1 1 ≤ count year month day) : first ≤ year := by
  by_contra hnot
  obtain ⟨⟨-, hlast⟩, -⟩ := h.place_bounds
  have hfirst : marchYear first 1 = first - 1 ∧ placeOf 1 1 = 306 := ⟨if_pos (by decide), by decide⟩
  rw [count_before, count_before, hfirst.1, hfirst.2] at hcount
  rcases h.place_split with ⟨hmonth, hplace⟩ | ⟨hmonth, hplace⟩
  · rw [marchYear, if_pos hmonth] at hcount
    have hmono := @before_mono (year - 1) (first - 2) (by omega)
    have hstep := before_succ (first - 2)
    rw [show first - 2 + 1 = first - 1 by omega] at hstep
    omega
  · rw [marchYear, if_neg (by omega)] at hcount
    have hmono := @before_mono year (first - 1) (by omega)
    omega

/-- A day no later than a year's last is in no later year. -/
theorem year_of_last {last year month day : ℤ} (h : IsDay year month day)
    (hcount : count year month day ≤ count last 12 31) : year ≤ last := by
  by_contra hnot
  obtain ⟨⟨hpos, -⟩, -⟩ := h.place_bounds
  have hlast : marchYear last 12 = last ∧ placeOf 12 31 = 305 := ⟨if_neg (by decide), by decide⟩
  rw [count_before, count_before, hlast.1, hlast.2] at hcount
  rcases h.place_split with ⟨hmonth, hplace⟩ | ⟨hmonth, hplace⟩
  · rw [marchYear, if_pos hmonth] at hcount
    have hmono := @before_mono last (year - 1) (by omega)
    omega
  · rw [marchYear, if_neg (by omega)] at hcount
    have hmono := @before_mono (last + 1) year (by omega)
    have hstep := before_succ last
    omega

def next (year month day : ℤ) : ℤ × ℤ × ℤ :=
  if day < length year month then (year, month, day + 1)
  else if month < 12 then (year, month + 1, 1)
  else (year + 1, 1, 1)

def Earlier (one other : ℤ × ℤ × ℤ) : Prop :=
  one.1 < other.1 ∨ one.1 = other.1 ∧
    (one.2.1 < other.2.1 ∨ one.2.1 = other.2.1 ∧ one.2.2 < other.2.2)

theorem length_bounds (year month : ℤ) : 28 ≤ length year month ∧ length year month ≤ 31 := by
  rw [length]
  split_ifs <;> omega

theorem before_next (year : ℤ) :
    before (year + 1) = before year + if leap (year + 1) = true then 366 else 365 := by
  by_cases h : leap (year + 1) = true
  · rw [if_pos h]
    rw [leap_iff] at h
    rw [before, before]
    omega
  · rw [if_neg h]
    rw [leap_iff] at h
    rw [before, before]
    omega

theorem next_isDay {year month day : ℤ} (h : IsDay year month day) :
    IsDay (next year month day).1 (next year month day).2.1 (next year month day).2.2 := by
  obtain ⟨hpos, hle, hday, hlength⟩ := h
  rw [next]
  split_ifs with hwithin hmonth <;> dsimp only
  · exact ⟨hpos, hle, by omega, by omega⟩
  · have hnext := length_bounds year (month + 1)
    exact ⟨by omega, by omega, by decide, by omega⟩
  · have hnext := length_bounds (year + 1) 1
    exact ⟨by decide, by decide, by decide, by omega⟩

/-- The place of a month's first day is one after the last of the month before, but for March's. -/
theorem place_next {year month : ℤ} (h : 1 ≤ month ∧ month < 12) (hmarch : month ≠ 2) :
    placeOf (month + 1) 1 = placeOf month (length year month) + 1 := by
  obtain ⟨hlow, hhigh⟩ := h
  rw [placeOf, placeOf, length, sinceMarch, sinceMarch]
  interval_cases month <;> omega

theorem count_december (year : ℤ) : count (year + 1) 1 1 = count year 12 31 + 1 := by
  have hmarch : marchYear (year + 1) 1 = year ∧ marchYear year 12 = year := by
    rw [marchYear, marchYear]
    norm_num
  have hplace : placeOf 1 1 = 306 ∧ placeOf 12 31 = 305 := by decide
  rw [count_before, count_before, hmarch.1, hmarch.2, hplace.1, hplace.2]
  omega

/-- A day after a day is counted one more. -/
theorem count_next {year month day : ℤ} (h : IsDay year month day) :
    count (next year month day).1 (next year month day).2.1 (next year month day).2.2 =
      count year month day + 1 := by
  obtain ⟨hpos, hle, hday, hlength⟩ := h
  rw [next]
  split_ifs with hwithin hmonth <;> dsimp only
  · rw [count_before, count_before, placeOf, placeOf]
    omega
  · have hlast : day = length year month := by omega
    subst hlast
    rw [count_before, count_before]
    by_cases hfebruary : month = 2
    · subst hfebruary
      have hyear := before_next (year - 1)
      rw [sub_add_cancel] at hyear
      have hmarch : marchYear year (2 + 1) = year ∧ marchYear year 2 = year - 1 :=
        ⟨if_neg (by decide), if_pos (by decide)⟩
      have hplace : placeOf (2 + 1) 1 = 0 ∧ placeOf 2 (length year 2) = 336 + length year 2 := by
        refine ⟨by decide, ?_⟩
        rw [placeOf, sinceMarch, if_neg (by decide)]
        omega
      rw [hmarch.1, hmarch.2, hplace.1, hplace.2, hyear, length, if_pos rfl]
      split_ifs <;> omega
    · have hplace := @place_next year month ⟨hpos, hmonth⟩ hfebruary
      have hmarch : marchYear year (month + 1) = marchYear year month := by
        rw [marchYear, marchYear]
        split_ifs <;> omega
      rw [hplace, hmarch]
      omega
  · have hlast : month = 12 := by omega
    subst hlast
    have hday' : day = 31 := by
      rw [length] at hwithin hlength
      norm_num at hwithin hlength
      omega
    subst hday'
    exact count_december year

theorem count_lt {year month day year' month' day' : ℤ} (h : IsDay year month day)
    (h' : IsDay year' month' day') (hearlier : Earlier (year, month, day) (year', month', day')) :
    count year month day < count year' month' day' := by
  rcases hearlier with hyear | ⟨hyear, hmonth⟩
  · -- the first of the year after stands between them
    have hfirst : count year month day < count (year + 1) 1 1 := by
      by_contra hnot
      have hle := year_of_first h (Int.not_lt.mp hnot)
      omega
    have hlast : count year 12 31 < count year' month' day' := by
      by_contra hnot
      have hle := year_of_last h' (Int.not_lt.mp hnot)
      simp only at hyear
      omega
    have hnext := count_december year
    omega
  · simp only at hyear hmonth
    subst hyear
    have hplace := month_of_place h
    have hplace' := month_of_place h'
    obtain ⟨⟨hnonneg, hlast⟩, hleap⟩ := h.place_bounds
    obtain ⟨⟨hnonneg', -⟩, -⟩ := h'.place_bounds
    rw [count_before, count_before]
    rcases hmonth with hmonth | ⟨rfl, hday⟩
    · by_cases hsame : marchYear year month = marchYear year month'
      · have hsince : sinceMarch month < sinceMarch month' := by
          have hpos := h.month_pos
          have hle := h'.month_le
          rw [marchYear, marchYear] at hsame
          rw [sinceMarch, sinceMarch]
          split_ifs at hsame ⊢ <;> omega
        rw [hsame]
        omega
      · have hmarch : marchYear year month = year - 1 ∧ marchYear year month' = year := by
          rw [marchYear, marchYear] at hsame
          rw [marchYear, marchYear]
          split_ifs at hsame ⊢ <;> omega
        have hyear := before_next (year - 1)
        rw [sub_add_cancel] at hyear
        have hleapYear : placeOf month day = 365 → leap year = true := by
          intro hplace
          obtain ⟨rfl, rfl⟩ := hleap hplace
          by_contra hnot
          have hlength := h.day_le
          rw [length, if_pos rfl, if_neg hnot] at hlength
          omega
        rw [hmarch.1, hmarch.2, hyear]
        split_ifs with hyes
        · omega
        · have hne : placeOf month day ≠ 365 := fun hplace => hyes (hleapYear hplace)
          omega
    · rw [placeOf, placeOf]
      omega

theorem earlier_total {one other : ℤ × ℤ × ℤ} (h : one ≠ other) :
    Earlier one other ∨ Earlier other one := by
  obtain ⟨year, month, day⟩ := one
  obtain ⟨year', month', day'⟩ := other
  simp only [ne_eq, Prod.mk.injEq] at h
  simp only [Earlier]
  omega

/-- Days are counted in the order of the calendar. -/
theorem count_lt_iff {year month day year' month' day' : ℤ} (h : IsDay year month day)
    (h' : IsDay year' month' day') :
    count year month day < count year' month' day' ↔
      Earlier (year, month, day) (year', month', day') := by
  constructor
  · intro hlt
    have hne : (year, month, day) ≠ (year', month', day') := by
      rintro heq
      cases heq
      exact lt_irrefl _ hlt
    rcases earlier_total hne with hearlier | hlater
    · exact hearlier
    · exact absurd (count_lt h' h hlater) (not_lt.mpr hlt.le)
  · exact count_lt h h'

end SoutherNative.Calendar
