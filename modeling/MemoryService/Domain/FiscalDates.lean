import MemoryService.Domain.FiscalPartition

/-!
# Fiscal dates that a date can hold

A date has a year from 1 to 9999.
-/

namespace MemoryService.Domain

open Foundation Foundation.Gregorian Option List

/-- What the arithmetic of dates and the lookup of a word raise. -/
inductive DateError where
  | valueError
  | overflowError
  | keyError
  deriving DecidableEq

/-- `date.max` -/
def maxDay : ℤ := 3652059

namespace Dated

def shifted (day days : ℤ) : Except DateError ℤ :=
  if 1 ≤ day + days ∧ day + days ≤ maxDay then .ok (day + days) else .error .overflowError

def newDate (year : ℤ) (month : ℕ) (day : ℤ) : Except DateError ℤ :=
  if 1 ≤ year ∧ year ≤ 9999 then .ok (date year month day) else .error .valueError

def monthEnd (year : ℤ) (month : ℕ) : Except DateError ℤ :=
  (newDate (year + if month = 12 then 1 else 0) (month % 12 + 1) 1).bind fun following =>
    shifted following (-1)

variable (calendar : FiscalCalendar) (fiscalYear : ℤ)

def yearEnd : Except DateError ℤ :=
  (monthEnd (calendar.calendarYear fiscalYear) calendar.endMonth).bind fun last =>
    let delta := (saturday - weekday last) % 7
    if delta ≤ 3 then shifted last delta else shifted last (-(7 - delta))

def yearStart : Except DateError ℤ :=
  (yearEnd calendar (fiscalYear - 1)).bind fun ended => shifted ended 1

def firstYear (day : ℤ) : List ℤ → Except DateError ℤ
  | [] => .error .valueError
  | fiscalYear :: rest =>
    (yearStart calendar fiscalYear).bind fun start =>
      if start ≤ day then
        (yearEnd calendar fiscalYear).bind fun ended =>
          if day ≤ ended then .ok fiscalYear else firstYear day rest
      else firstYear day rest

/-- The year that `year_of` guesses. -/
def guess (day : ℤ) : ℤ :=
  if calendar.namedBy = .byEnd then yearOfDay day else yearOfDay day - 1

def yearOf (day : ℤ) : Except DateError ℤ :=
  let guess := guess calendar day
  firstYear calendar day [guess - 1, guess, guess + 1, guess + 2]

def weeksIn : Except DateError ℤ :=
  (yearEnd calendar fiscalYear).bind fun ended =>
    (yearStart calendar fiscalYear).map fun start => (ended - start + 1) / 7

def week (fiscalYear number : ℤ) : Except DateError Range :=
  (yearStart calendar fiscalYear).bind fun first =>
    (shifted first (7 * (number - 1))).bind fun start =>
      (shifted start 6).map fun last => (start, last)

def periodWeeks : Except DateError (List ℕ) :=
  let weeks := (replicate 4 (weeksOf calendar.pattern)).flatten
  (weeksIn calendar fiscalYear).map fun inYear =>
    if inYear = 53 then weeks.modify (weeks.length - 1) (· + 1) else weeks

def period (number : ℕ) : Except DateError Range :=
  (periodWeeks calendar fiscalYear).bind fun weeks =>
    let first : ℤ := upTo weeks (number - 1) + 1
    (week calendar fiscalYear first).bind fun firstWeek =>
      (week calendar fiscalYear (first + weeks.getD (number - 1) 0 - 1)).map fun lastWeek =>
        (firstWeek.1, lastWeek.2)

def quarter (number : ℕ) : Except DateError Range :=
  (period calendar fiscalYear (3 * number - 2)).bind fun first =>
    (period calendar fiscalYear (3 * number)).map fun last => (first.1, last.2)

def season (half : ℕ) : Except DateError Range :=
  (quarter calendar fiscalYear (2 * half - 1)).bind fun first =>
    (quarter calendar fiscalYear (2 * half)).map fun last => (first.1, last.2)

def year : Except DateError Range :=
  (yearStart calendar fiscalYear).bind fun start =>
    (yearEnd calendar fiscalYear).map fun ended => (start, ended)

def position (day : ℤ) : Except DateError FiscalPosition :=
  (yearOf calendar day).bind fun fiscalYear =>
    (yearStart calendar fiscalYear).bind fun start =>
      let week := (day - start) / 7 + 1
      (periodWeeks calendar fiscalYear).bind fun weeks =>
        match FiscalCalendar.countPeriods week 1 (weeks.getD 0 0) weeks.tail with
        | some period => .ok { year := fiscalYear, week, period, quarter := (period - 1) / 3 + 1 }
        | none => .error .valueError

def Ended : Prop :=
  1 ≤ calendar.calendarYear fiscalYear ∧
    calendar.calendarYear fiscalYear + (if calendar.endMonth = 12 then 1 else 0) ≤ 9999
deriving Decidable

def Known : Prop := Ended calendar (fiscalYear - 1) ∧ Ended calendar fiscalYear
deriving Decidable

theorem shifted_ok {day days : ℤ} (held : 1 ≤ day + days ∧ day + days ≤ maxDay) :
    shifted day days = .ok (day + days) := if_pos held

theorem monthEnd_held {year : ℤ} {month : ℕ} (isMonth : 1 ≤ month ∧ month ≤ 12)
    (held : 1 ≤ year ∧ year + (if month = 12 then 1 else 0) ≤ 9999) :
    31 ≤ Domain.monthEnd year month ∧ Domain.monthEnd year month + 4 ≤ maxDay := by
  obtain ⟨after, -⟩ := monthEnd_bounds year isMonth
  obtain ⟨atLeast, atMost⟩ := held
  have dates : daysBeforeYear year + 31 ≤ Domain.monthEnd year month := after
  have someDays : 0 ≤ daysBeforeYear year := by
    rw [daysBeforeYear]
    omega
  refine ⟨by omega, ?_⟩
  by_cases isDecember : month = 12
  · obtain ⟨-, before⟩ := monthEnd_bounds year isMonth
    rw [if_pos isDecember] at atMost
    rw [daysBeforeYear] at before
    rw [maxDay]
    omega
  · rw [if_neg isDecember, Int.add_zero] at atMost
    have before := monthEnd_le_of_lt year (show 1 ≤ month ∧ month < 12 by omega)
    rw [daysBeforeYear] at before
    rw [maxDay]
    omega

theorem monthEnd_ok {year : ℤ} {month : ℕ} (isMonth : 1 ≤ month ∧ month ≤ 12)
    (held : 1 ≤ year ∧ year + (if month = 12 then 1 else 0) ≤ 9999) :
    monthEnd year month = .ok (Domain.monthEnd year month) := by
  have dates := monthEnd_held isMonth held
  have isDate : 1 ≤ year + (if month = 12 then 1 else 0) ∧
      year + (if month = 12 then 1 else 0) ≤ 9999 := by
    refine ⟨?_, held.2⟩
    split <;> omega
  rw [monthEnd, newDate, if_pos isDate]
  exact shifted_ok (by rw [Domain.monthEnd] at dates; omega)

theorem monthEnd_fails {year : ℤ} {month : ℕ}
    (notHeld : ¬(1 ≤ year ∧ year + (if month = 12 then 1 else 0) ≤ 9999)) :
    ∃ raised, monthEnd year month = .error raised := by
  rw [monthEnd, newDate]
  by_cases isDate : 1 ≤ year + (if month = 12 then 1 else 0) ∧
      year + (if month = 12 then 1 else 0) ≤ 9999
  · -- the first day of all has no day before it
    have isDecember : month = 12 := by
      by_contra notDecember
      rw [if_neg notDecember] at isDate notHeld
      omega
    subst isDecember
    have isFirst : year + 1 = 1 := by
      simp only [if_true] at isDate notHeld
      omega
    rw [if_pos isDate]
    simp only [if_true, isFirst]
    exact ⟨.overflowError, by decide⟩
  · rw [if_neg isDate]
    exact ⟨.valueError, rfl⟩

section

variable {calendar} {fiscalYear : ℤ}

theorem yearEnd_held (ended : Ended calendar fiscalYear) :
    1 ≤ calendar.yearEnd fiscalYear ∧ calendar.yearEnd fiscalYear + 1 ≤ maxDay := by
  have spec := calendar.yearEnd_spec fiscalYear
  have dates := monthEnd_held calendar.isMonth ended
  rw [FiscalCalendar.lastDay] at spec
  omega

theorem yearEnd_ok (ended : Ended calendar fiscalYear) :
    yearEnd calendar fiscalYear = .ok (calendar.yearEnd fiscalYear) := by
  have held := yearEnd_held ended
  rw [yearEnd, monthEnd_ok calendar.isMonth ended]
  rw [FiscalCalendar.yearEnd] at held ⊢
  simp only [Except.bind] at held ⊢
  split
  case isTrue near =>
    rw [if_pos near] at held
    exact shifted_ok (by omega)
  case isFalse far =>
    rw [if_neg far] at held
    rw [shifted_ok (by omega), ← Int.sub_eq_add_neg]

theorem yearEnd_fails (notEnded : ¬Ended calendar fiscalYear) :
    ∃ raised, yearEnd calendar fiscalYear = .error raised := by
  obtain ⟨raised, isRaised⟩ := monthEnd_fails notEnded
  rw [yearEnd, isRaised]
  exact ⟨raised, rfl⟩

theorem yearStart_ok (ended : Ended calendar (fiscalYear - 1)) :
    yearStart calendar fiscalYear = .ok (calendar.yearStart fiscalYear) := by
  have held := yearEnd_held ended
  rw [yearStart, yearEnd_ok ended]
  exact shifted_ok (by omega)

theorem yearStart_fails (notEnded : ¬Ended calendar (fiscalYear - 1)) :
    ∃ raised, yearStart calendar fiscalYear = .error raised := by
  obtain ⟨raised, isRaised⟩ := yearEnd_fails notEnded
  rw [yearStart, isRaised]
  exact ⟨raised, rfl⟩

theorem weeksIn_ok (known : Known calendar fiscalYear) :
    weeksIn calendar fiscalYear = .ok (calendar.weeksIn fiscalYear) := by
  rw [weeksIn, yearEnd_ok known.2, Except.bind, yearStart_ok known.1]
  rfl

theorem weeksIn_fails (unknown : ¬Known calendar fiscalYear) :
    ∃ raised, weeksIn calendar fiscalYear = .error raised := by
  rw [weeksIn]
  by_cases ended : Ended calendar fiscalYear
  · have notStarted : ¬Ended calendar (fiscalYear - 1) := fun started => unknown ⟨started, ended⟩
    obtain ⟨raised, isRaised⟩ := yearStart_fails notStarted
    rw [yearEnd_ok ended, isRaised]
    exact ⟨raised, rfl⟩
  · obtain ⟨raised, isRaised⟩ := yearEnd_fails ended
    rw [isRaised]
    exact ⟨raised, rfl⟩

section

variable (known : Known calendar fiscalYear)
include known

theorem days_held :
    1 ≤ calendar.yearStart fiscalYear ∧ calendar.yearEnd fiscalYear + 1 ≤ maxDay := by
  have started := yearEnd_held known.1
  have ended := yearEnd_held known.2
  rw [FiscalCalendar.yearStart]
  omega

theorem week_ok {number : ℤ} (isWeek : 1 ≤ number ∧ number ≤ calendar.weeksIn fiscalYear) :
    week calendar fiscalYear number = .ok (calendar.week fiscalYear number) := by
  have held := days_held known
  obtain ⟨total, -, isTotal, ends⟩ := calendar.periodWeeks_spec fiscalYear
  have startHeld : 1 ≤ calendar.yearStart fiscalYear + 7 * (number - 1) ∧
      calendar.yearStart fiscalYear + 7 * (number - 1) ≤ maxDay := by omega
  have lastHeld : 1 ≤ calendar.yearStart fiscalYear + 7 * (number - 1) + 6 ∧
      calendar.yearStart fiscalYear + 7 * (number - 1) + 6 ≤ maxDay := by omega
  rw [week, yearStart_ok known.1, Except.bind, shifted_ok startHeld, Except.bind,
    shifted_ok lastHeld]
  rfl

theorem periodWeeks_ok :
    periodWeeks calendar fiscalYear = .ok (calendar.periodWeeks fiscalYear) := by
  rw [periodWeeks, weeksIn_ok known]
  rfl

end

theorem periodWeeks_fails (unknown : ¬Known calendar fiscalYear) :
    ∃ raised, periodWeeks calendar fiscalYear = .error raised := by
  obtain ⟨raised, isRaised⟩ := weeksIn_fails unknown
  rw [periodWeeks, isRaised]
  exact ⟨raised, rfl⟩

theorem weeks_of_period {number : ℕ} (isPeriod : 1 ≤ number ∧ number ≤ 12) :
    let weeks := calendar.periodWeeks fiscalYear
    1 ≤ weeks.getD (number - 1) 0 ∧
      (upTo weeks (number - 1) + weeks.getD (number - 1) 0 : ℕ) ≤ calendar.weeksIn fiscalYear := by
  obtain ⟨total, periods, isTotal, -⟩ := calendar.periodWeeks_spec fiscalYear
  have grown := upTo_succ (calendar.periodWeeks fiscalYear) (number - 1)
  rw [show number - 1 + 1 = number by omega] at grown
  have notMore := upTo_mono (calendar.periodWeeks fiscalYear) isPeriod.2
  rw [periods.together] at notMore
  have someWeeks := getD_positive periods.positive
    (show number - 1 < (calendar.periodWeeks fiscalYear).length by rw [periods.twelve]; omega)
  refine ⟨someWeeks, ?_⟩
  rw [isTotal]
  omega

theorem period_ok {number : ℕ} (known : Known calendar fiscalYear)
    (isPeriod : 1 ≤ number ∧ number ≤ 12) :
    period calendar fiscalYear number = .ok (calendar.period fiscalYear number) := by
  have weeks := @weeks_of_period calendar fiscalYear _ isPeriod
  dsimp only at weeks
  rw [period, periodWeeks_ok known, Except.bind]
  dsimp only
  rw [week_ok known (by omega), Except.bind, week_ok known (by omega)]
  rfl

theorem period_fails (number : ℕ) (unknown : ¬Known calendar fiscalYear) :
    ∃ raised, period calendar fiscalYear number = .error raised := by
  obtain ⟨raised, isRaised⟩ := periodWeeks_fails unknown
  rw [period, isRaised]
  exact ⟨raised, rfl⟩

theorem quarter_ok {number : ℕ} (known : Known calendar fiscalYear)
    (isQuarter : 1 ≤ number ∧ number ≤ 4) :
    quarter calendar fiscalYear number = .ok (calendar.quarter fiscalYear number) := by
  rw [quarter, period_ok known (by omega), Except.bind, period_ok known (by omega)]
  rfl

theorem quarter_fails (number : ℕ) (unknown : ¬Known calendar fiscalYear) :
    ∃ raised, quarter calendar fiscalYear number = .error raised := by
  obtain ⟨raised, isRaised⟩ := period_fails (3 * number - 2) unknown
  rw [quarter, isRaised]
  exact ⟨raised, rfl⟩

theorem season_ok {half : ℕ} (known : Known calendar fiscalYear) (isHalf : 1 ≤ half ∧ half ≤ 2) :
    season calendar fiscalYear half = .ok (calendar.season fiscalYear half) := by
  rw [season, quarter_ok known (by omega), Except.bind, quarter_ok known (by omega)]
  rfl

theorem season_fails (half : ℕ) (unknown : ¬Known calendar fiscalYear) :
    ∃ raised, season calendar fiscalYear half = .error raised := by
  obtain ⟨raised, isRaised⟩ := quarter_fails (2 * half - 1) unknown
  rw [season, isRaised]
  exact ⟨raised, rfl⟩

theorem year_ok (known : Known calendar fiscalYear) :
    year calendar fiscalYear = .ok (calendar.year fiscalYear) := by
  rw [year, yearStart_ok known.1, Except.bind, yearEnd_ok known.2]
  rfl

theorem year_fails (unknown : ¬Known calendar fiscalYear) :
    ∃ raised, year calendar fiscalYear = .error raised := by
  rw [year]
  by_cases started : Ended calendar (fiscalYear - 1)
  · have notEnded : ¬Ended calendar fiscalYear := fun ended => unknown ⟨started, ended⟩
    obtain ⟨raised, isRaised⟩ := yearEnd_fails notEnded
    rw [yearStart_ok started, isRaised]
    exact ⟨raised, rfl⟩
  · obtain ⟨raised, isRaised⟩ := yearStart_fails started
    rw [isRaised]
    exact ⟨raised, rfl⟩

def Placed (calendar : FiscalCalendar) (day : ℤ) : Prop :=
  Known calendar (guess calendar day - 1) ∧
    ∀ fiscalYear ∈ calendar.yearOf day, Known calendar fiscalYear
deriving Decidable

theorem Known.between {first middle last : ℤ} (firstKnown : Known calendar first)
    (lastKnown : Known calendar last) (after : first ≤ middle) (before : middle ≤ last) :
    Known calendar middle := by
  obtain ⟨⟨firstStart, -⟩, firstEnd, -⟩ := firstKnown
  obtain ⟨⟨-, lastStart⟩, -, lastEnd⟩ := lastKnown
  simp only [Known, Ended, FiscalCalendar.calendarYear] at *
  omega

variable {day : ℤ} {rest : List ℤ}

theorem firstYear_pass (known : Known calendar fiscalYear)
    (isOver : calendar.yearEnd fiscalYear < day) :
    firstYear calendar day (fiscalYear :: rest) = firstYear calendar day rest := by
  have started : calendar.yearStart fiscalYear ≤ day := by
    have weeks := calendar.year_weeks fiscalYear
    omega
  rw [firstYear, yearStart_ok known.1, Except.bind]
  rw [if_pos started, yearEnd_ok known.2, Except.bind, if_neg (by omega)]

theorem firstYear_found (known : Known calendar fiscalYear)
    (holds : (calendar.year fiscalYear).Holds day) :
    firstYear calendar day (fiscalYear :: rest) = .ok fiscalYear := by
  obtain ⟨started, notOver⟩ : calendar.yearStart fiscalYear ≤ day ∧
      day ≤ calendar.yearEnd fiscalYear := holds
  rw [firstYear, yearStart_ok known.1, Except.bind]
  rw [if_pos started, yearEnd_ok known.2, Except.bind, if_pos notOver]

theorem firstYear_fails (unknown : ¬Known calendar fiscalYear)
    (started : calendar.yearStart fiscalYear ≤ day) :
    ∃ raised, firstYear calendar day (fiscalYear :: rest) = .error raised := by
  rw [firstYear]
  by_cases ended : Ended calendar (fiscalYear - 1)
  · have notEnded : ¬Ended calendar fiscalYear := fun later => unknown ⟨ended, later⟩
    obtain ⟨raised, isRaised⟩ := yearEnd_fails notEnded
    rw [yearStart_ok ended, Except.bind, if_pos started, isRaised]
    exact ⟨raised, rfl⟩
  · obtain ⟨raised, isRaised⟩ := yearStart_fails ended
    rw [isRaised]
    exact ⟨raised, rfl⟩

def years (fiscalYear : ℤ) : ℕ → List ℤ
  | 0 => [fiscalYear]
  | more + 1 => fiscalYear :: years (fiscalYear + 1) more

theorem firstYear_years {held : ℤ} (holds : (calendar.year held).Holds day) :
    ∀ (more : ℕ) (fiscalYear : ℤ), fiscalYear + more = held →
      (Known calendar fiscalYear → Known calendar held →
        firstYear calendar day (years fiscalYear more ++ rest) = .ok held) ∧
      (¬(Known calendar fiscalYear ∧ Known calendar held) →
        ∃ raised, firstYear calendar day (years fiscalYear more ++ rest) = .error raised)
  | 0, fiscalYear, isHeld => by
    have same : fiscalYear = held := by omega
    subst same
    refine ⟨fun known _ => firstYear_found known holds, fun unknown => ?_⟩
    exact firstYear_fails (fun known => unknown ⟨known, known⟩) holds.1
  | more + 1, fiscalYear, isHeld => by
    have apart : calendar.yearEnd fiscalYear < calendar.yearStart held :=
      calendar.yearEnd_lt (by omega)
    have started : calendar.yearStart held ≤ day := holds.1
    obtain ⟨later, laterFails⟩ := firstYear_years holds more (fiscalYear + 1) (by omega)
    rw [years, cons_append]
    refine ⟨fun known heldKnown => ?_, fun unknown => ?_⟩
    · rw [firstYear_pass known (by omega)]
      exact later (known.between heldKnown (by omega) (by omega)) heldKnown
    · by_cases known : Known calendar fiscalYear
      · rw [firstYear_pass known (by omega)]
        exact laterFails fun both => unknown ⟨known, both.2⟩
      · have weeks := calendar.year_weeks fiscalYear
        exact firstYear_fails known (by omega)

theorem yearOf_cases (day : ℤ) : ∃ held, calendar.yearOf day = some held ∧
    (calendar.year held).Holds day ∧
      ((Placed calendar day → yearOf calendar day = .ok held) ∧
        (¬Placed calendar day → ∃ raised, yearOf calendar day = .error raised)) := by
  obtain ⟨held, isHeld, holds⟩ := calendar.yearOf_eq_some day
  refine ⟨held, isHeld, holds, ?_⟩
  have placed_iff : Placed calendar day ↔
      Known calendar (guess calendar day - 1) ∧ Known calendar held := by
    simp only [Placed, isHeld, mem_def, some_inj, forall_eq']
  have tried : held ∈ [guess calendar day - 1, guess calendar day, guess calendar day + 1,
      guess calendar day + 2] := by
    rw [FiscalCalendar.yearOf] at isHeld
    exact mem_of_find?_eq_some isHeld
  have listed : ∃ (more : ℕ) (rest : List ℤ), guess calendar day - 1 + more = held ∧
      [guess calendar day - 1, guess calendar day, guess calendar day + 1,
        guess calendar day + 2] = years (guess calendar day - 1) more ++ rest := by
    have second : guess calendar day - 1 + 1 = guess calendar day := Int.sub_add_cancel _ _
    have fourth : guess calendar day + 1 + 1 = guess calendar day + 2 := Int.add_assoc _ _ _
    simp only [mem_cons, not_mem_nil, or_false] at tried
    rcases tried with rfl | rfl | rfl | rfl
    · exact ⟨0, _, by omega, rfl⟩
    · exact ⟨1, _, by omega, by rw [years, years, second]; rfl⟩
    · exact ⟨2, _, by omega, by rw [years, years, years, second]; rfl⟩
    · exact ⟨3, [], by omega, by rw [years, years, years, years, second, fourth]; rfl⟩
  obtain ⟨more, rest, isHeldLast, isList⟩ := listed
  have run := @firstYear_years calendar day rest held holds more _ isHeldLast
  rw [placed_iff, yearOf, isList]
  exact ⟨fun placed => run.1 placed.1 placed.2, run.2⟩

theorem position_cases (day : ℤ) : ∃ held found, calendar.yearOf day = some held ∧
    calendar.position day = some found ∧ (calendar.year held).Holds day ∧ found.year = held ∧
      ((Placed calendar day → position calendar day = .ok found) ∧
        (¬Placed calendar day → ∃ raised, position calendar day = .error raised)) := by
  obtain ⟨held, isHeld, holds, ok, fails⟩ := @yearOf_cases calendar day
  obtain ⟨found, isFound, sameYear, -⟩ := calendar.position_spec isHeld holds
  refine ⟨held, found, isHeld, isFound, holds, sameYear, ?_, ?_⟩
  · intro placed
    have known : Known calendar held := placed.2 held isHeld
    rw [FiscalCalendar.position, isHeld, bind_some, map_eq_some_iff] at isFound
    obtain ⟨period, counted, rfl⟩ := isFound
    rw [position, ok placed, Except.bind, yearStart_ok known.1, Except.bind]
    rw [periodWeeks_ok known, Except.bind, counted]
  · intro notPlaced
    obtain ⟨raised, isRaised⟩ := fails notPlaced
    rw [position, isRaised]
    exact ⟨raised, rfl⟩

end

end Dated

end MemoryService.Domain
