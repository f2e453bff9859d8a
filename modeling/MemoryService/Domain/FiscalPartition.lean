import MemoryService.Foundation.Gregorian
import MemoryService.Foundation.Tiling
import Mathlib.Tactic.IntervalCases

/-!
# A retail fiscal calendar

A year of 52 or 53 weeks that ends on the Saturday nearest the end of a month, with twelve
periods of four or five weeks, four quarters and two seasons.  A 53rd week joins the last
period.  A day is its ordinal.
-/

namespace MemoryService.Domain

open Foundation Foundation.Gregorian List

/-- The weeks of the three periods of a quarter. -/
inductive Pattern where
  | p454
  | p445
  | p544

def weeksOf : Pattern → List ℕ
  | .p454 => [4, 5, 4]
  | .p445 => [4, 4, 5]
  | .p544 => [5, 4, 4]

inductive NamedBy where
  | byStart
  | byEnd
  deriving DecidableEq

def saturday : ℤ := 5

def monthEnd (year : ℤ) (month : ℕ) : ℤ :=
  date (year + if month = 12 then 1 else 0) (month % 12 + 1) 1 - 1

structure FiscalCalendar where
  pattern : Pattern := .p454
  endMonth : ℕ := 1
  namedBy : NamedBy := .byStart
  isMonth : 1 ≤ endMonth ∧ endMonth ≤ 12 := by decide

structure FiscalPosition where
  year : ℤ
  week : ℤ
  period : ℕ
  quarter : ℕ
  deriving DecidableEq

namespace FiscalCalendar

variable (calendar : FiscalCalendar) (fiscalYear : ℤ)

def calendarYear : ℤ :=
  fiscalYear + if calendar.namedBy = .byStart ∧ calendar.endMonth ≠ 12 then 1 else 0

def yearEnd : ℤ :=
  let last := monthEnd (calendar.calendarYear fiscalYear) calendar.endMonth
  let delta := (saturday - weekday last) % 7
  if delta ≤ 3 then last + delta else last - (7 - delta)

def yearStart : ℤ := calendar.yearEnd (fiscalYear - 1) + 1

/-- The fiscal year that holds a day; `none` where none of the years tried does. -/
def yearOf (day : ℤ) : Option ℤ :=
  let guess := if calendar.namedBy = .byEnd then yearOfDay day else yearOfDay day - 1
  [guess - 1, guess, guess + 1, guess + 2].find? fun fiscalYear =>
    calendar.yearStart fiscalYear ≤ day ∧ day ≤ calendar.yearEnd fiscalYear

def weeksIn : ℤ := (calendar.yearEnd fiscalYear - calendar.yearStart fiscalYear + 1) / 7

def week (fiscalYear number : ℤ) : Range :=
  let start := calendar.yearStart fiscalYear + 7 * (number - 1)
  (start, start + 6)

def periodWeeks : List ℕ :=
  let weeks := (List.replicate 4 (weeksOf calendar.pattern)).flatten
  if calendar.weeksIn fiscalYear = 53 then weeks.modify (weeks.length - 1) (· + 1) else weeks

def period (number : ℕ) : Range :=
  let weeks := calendar.periodWeeks fiscalYear
  let first : ℤ := upTo weeks (number - 1) + 1
  ((calendar.week fiscalYear first).1,
    (calendar.week fiscalYear (first + weeks.getD (number - 1) 0 - 1)).2)

def quarter (number : ℕ) : Range :=
  ((calendar.period fiscalYear (3 * number - 2)).1, (calendar.period fiscalYear (3 * number)).2)

def season (half : ℕ) : Range :=
  ((calendar.quarter fiscalYear (2 * half - 1)).1, (calendar.quarter fiscalYear (2 * half)).2)

def year : Range := (calendar.yearStart fiscalYear, calendar.yearEnd fiscalYear)

/-- The period of a week: the weeks seen so far, up to those of `period`, and the weeks of the
periods after it. -/
def countPeriods (week : ℤ) : (period seen : ℕ) → List ℕ → Option ℕ
  | period, seen, [] => if week ≤ seen then some period else none
  | period, seen, weeks :: rest =>
    if week ≤ seen then some period else countPeriods week (period + 1) (seen + weeks) rest

def position (day : ℤ) : Option FiscalPosition :=
  (calendar.yearOf day).bind fun fiscalYear =>
    let week := (day - calendar.yearStart fiscalYear) / 7 + 1
    let weeks := calendar.periodWeeks fiscalYear
    (countPeriods week 1 (weeks.getD 0 0) weeks.tail).map fun period =>
      { year := fiscalYear, week, period, quarter := (period - 1) / 3 + 1 }

end FiscalCalendar

/-!
## The fiscal calendar partitions the days

Two month ends a year apart are 365 or 366 days apart, and the Saturday nearest each is at most
three days away; so two year ends are 52 or 53 weeks apart.
-/

section

variable {month : ℕ} (year : ℤ)

theorem monthEnd_of_lt (before : month < 12) :
    monthEnd year month = daysBeforeYear year + daysBeforeMonth year (month + 1) := by
  rw [monthEnd, date, Nat.mod_eq_of_lt before, if_neg (by omega), Int.add_zero]
  omega

theorem monthEnd_december : monthEnd year 12 = daysBeforeYear (year + 1) := by
  simp [monthEnd, date, daysBeforeMonth, daysBeforeMonths]

theorem daysBeforeMonth_bounds (isMonth : 1 ≤ month ∧ month < 12) (year : ℤ) :
    31 ≤ daysBeforeMonth year (month + 1) ∧
      daysBeforeMonth year (month + 1) ≤ 334 + leapDay year := by
  have table : 31 ≤ daysBeforeMonths.getD month 0 ∧ daysBeforeMonths.getD month 0 ≤ 334 := by
    obtain ⟨atLeast, before⟩ := isMonth
    interval_cases month <;> decide
  have leap := leapDay_cases year
  rw [daysBeforeMonth, Nat.add_sub_cancel]
  split <;> omega

theorem monthEnd_le_of_lt (isMonth : 1 ≤ month ∧ month < 12) :
    monthEnd year month ≤ daysBeforeYear year + 335 := by
  have bounds := daysBeforeMonth_bounds isMonth year
  have leap := leapDay_cases year
  rw [monthEnd_of_lt _ isMonth.2]
  omega

theorem monthEnd_succ (isMonth : 1 ≤ month ∧ month ≤ 12) :
    monthEnd (year + 1) month = monthEnd year month + 365 ∨
      monthEnd (year + 1) month = monthEnd year month + 366 := by
  have later := daysBeforeYear_succ year
  have leap := leapDay_cases year
  have nextLeap := leapDay_cases (year + 1)
  by_cases before : month < 12
  · rw [monthEnd_of_lt _ before, monthEnd_of_lt _ before, daysBeforeMonth, daysBeforeMonth]
    split <;> omega
  · have isDecember : month = 12 := by omega
    have evenLater := daysBeforeYear_succ (year + 1)
    rw [isDecember, monthEnd_december, monthEnd_december]
    omega

theorem monthEnd_bounds (isMonth : 1 ≤ month ∧ month ≤ 12) :
    daysBeforeYear year + 31 ≤ monthEnd year month ∧
      monthEnd year month ≤ daysBeforeYear (year + 1) := by
  have later := daysBeforeYear_succ year
  have leap := leapDay_cases year
  by_cases before : month < 12
  · have bounds := daysBeforeMonth_bounds ⟨isMonth.1, before⟩ year
    rw [monthEnd_of_lt _ before]
    omega
  · have isDecember : month = 12 := by omega
    rw [isDecember, monthEnd_december]
    omega

end

namespace FiscalCalendar

variable (calendar : FiscalCalendar) (fiscalYear : ℤ)

def lastDay : ℤ := monthEnd (calendar.calendarYear fiscalYear) calendar.endMonth

theorem yearEnd_spec :
    weekday (calendar.yearEnd fiscalYear) = saturday ∧
      calendar.lastDay fiscalYear - 3 ≤ calendar.yearEnd fiscalYear ∧
      calendar.yearEnd fiscalYear ≤ calendar.lastDay fiscalYear + 3 := by
  simp only [yearEnd, weekday, saturday, lastDay]
  split_ifs <;> omega

theorem calendarYear_succ :
    calendar.calendarYear (fiscalYear + 1) = calendar.calendarYear fiscalYear + 1 := by
  rw [calendarYear, calendarYear]
  omega

theorem yearEnd_succ :
    calendar.yearEnd (fiscalYear + 1) = calendar.yearEnd fiscalYear + 364 ∨
      calendar.yearEnd (fiscalYear + 1) = calendar.yearEnd fiscalYear + 371 := by
  have spec := calendar.yearEnd_spec fiscalYear
  have nextSpec := calendar.yearEnd_spec (fiscalYear + 1)
  have apart := monthEnd_succ (calendar.calendarYear fiscalYear) calendar.isMonth
  simp only [weekday, saturday, lastDay, calendarYear_succ] at spec nextSpec
  omega

theorem year_weeks :
    calendar.yearEnd fiscalYear = calendar.yearStart fiscalYear + 7 * 52 - 1 ∨
      calendar.yearEnd fiscalYear = calendar.yearStart fiscalYear + 7 * 53 - 1 := by
  have apart := calendar.yearEnd_succ (fiscalYear - 1)
  rw [Int.sub_add_cancel] at apart
  rw [yearStart]
  omega

variable {first second day fiscalYear : ℤ} {number : ℕ}

theorem yearEnd_lt (before : first < second) :
    calendar.yearEnd first < calendar.yearStart second := by
  have monotone : StrictMono calendar.yearEnd := by
    apply strictMono_int_of_lt_succ
    intro fiscalYear
    have apart := calendar.yearEnd_succ fiscalYear
    omega
  have ended : calendar.yearEnd first ≤ calendar.yearEnd (second - 1) :=
    monotone.monotone (by omega)
  rw [yearStart]
  omega

theorem year_unique (inFirst : (calendar.year first).Holds day)
    (inSecond : (calendar.year second).Holds day) : first = second := by
  have bounds : calendar.yearStart first ≤ day ∧ day ≤ calendar.yearEnd first := inFirst
  have otherBounds : calendar.yearStart second ≤ day ∧ day ≤ calendar.yearEnd second := inSecond
  by_contra differ
  rcases lt_or_gt_of_ne differ with before | after
  · have ended := calendar.yearEnd_lt before
    omega
  · have ended := calendar.yearEnd_lt after
    omega

theorem yearEnd_around (day : ℤ) (isNamed : calendar.calendarYear fiscalYear = yearOfDay day) :
    calendar.yearEnd (fiscalYear - 2) < day ∧ day ≤ calendar.yearEnd (fiscalYear + 1) := by
  have inYear := yearOfDay_spec day
  have spec := calendar.yearEnd_spec (fiscalYear - 2)
  have nextSpec := calendar.yearEnd_spec (fiscalYear + 1)
  have next := calendar.calendarYear_succ fiscalYear
  have before := calendar.calendarYear_succ (fiscalYear - 1)
  have beforeThat := calendar.calendarYear_succ (fiscalYear - 2)
  have sameYear : fiscalYear - 2 + 1 = fiscalYear - 1 := by omega
  rw [sameYear] at beforeThat
  rw [Int.sub_add_cancel] at before
  have bounds := monthEnd_bounds (calendar.calendarYear (fiscalYear - 2)) calendar.isMonth
  have nextBounds := monthEnd_bounds (calendar.calendarYear (fiscalYear + 1)) calendar.isMonth
  have earlier := daysBeforeYear_succ (yearOfDay day - 1)
  have leap := leapDay_cases (yearOfDay day - 1)
  have isBefore : calendar.calendarYear (fiscalYear - 2) + 1 = yearOfDay day - 1 := by omega
  have isNext : calendar.calendarYear (fiscalYear + 1) = yearOfDay day + 1 := by omega
  rw [Int.sub_add_cancel] at earlier
  rw [isBefore] at bounds
  rw [isNext] at nextBounds
  simp only [lastDay] at spec nextSpec
  rw [isNext] at nextSpec
  omega

theorem exists_year (day : ℤ) (isNamed : calendar.calendarYear fiscalYear = yearOfDay day) :
    (calendar.year (fiscalYear - 1)).Holds day ∨ (calendar.year fiscalYear).Holds day ∨
      (calendar.year (fiscalYear + 1)).Holds day := by
  obtain ⟨started, notOver⟩ := calendar.yearEnd_around day isNamed
  have twoBefore : fiscalYear - 1 - 1 = fiscalYear - 2 := by omega
  simp only [Range.Holds, year, yearStart, twoBefore, Int.add_sub_cancel]
  omega

theorem yearOf_eq_some (day : ℤ) :
    ∃ fiscalYear, calendar.yearOf day = some fiscalYear ∧ (calendar.year fiscalYear).Holds day := by
  have tried : ∃ guess, calendar.yearOf day =
      [guess - 1, guess, guess + 1, guess + 2].find? (fun fiscalYear =>
        decide ((calendar.year fiscalYear).Holds day)) ∧
      (calendar.calendarYear guess = yearOfDay day ∨
        calendar.calendarYear (guess + 1) = yearOfDay day) := by
    refine ⟨if calendar.namedBy = .byEnd then yearOfDay day else yearOfDay day - 1, rfl, ?_⟩
    rw [calendarYear, calendarYear]
    cases calendar.namedBy <;> by_cases december : calendar.endMonth = 12 <;>
      simp [december]
  obtain ⟨guess, isFound, isNamed⟩ := tried
  have held : ∃ fiscalYear ∈ [guess - 1, guess, guess + 1, guess + 2],
      (calendar.year fiscalYear).Holds day := by
    rcases isNamed with isGuess | isNext
    · rcases calendar.exists_year day isGuess with inFirst | inSecond | inThird
      · exact ⟨guess - 1, by simp, inFirst⟩
      · exact ⟨guess, by simp, inSecond⟩
      · exact ⟨guess + 1, by simp, inThird⟩
    · have sameYear : guess + 1 + 1 = guess + 2 := by omega
      have around := calendar.exists_year day isNext
      rw [Int.add_sub_cancel, sameYear] at around
      rcases around with inFirst | inSecond | inThird
      · exact ⟨guess, by simp, inFirst⟩
      · exact ⟨guess + 1, by simp, inSecond⟩
      · exact ⟨guess + 2, by simp, inThird⟩
  rw [isFound]
  cases isYear : [guess - 1, guess, guess + 1, guess + 2].find? (fun fiscalYear =>
      decide ((calendar.year fiscalYear).Holds day)) with
  | none =>
    obtain ⟨fiscalYear, member, holds⟩ := held
    have missed := find?_eq_none.mp isYear fiscalYear member
    exact absurd (decide_eq_true holds) missed
  | some fiscalYear =>
    have holds := find?_some isYear
    exact ⟨fiscalYear, rfl, by simpa using holds⟩

theorem weeksIn_cases (fiscalYear : ℤ) :
    (calendar.weeksIn fiscalYear = 52 ∧
        calendar.yearEnd fiscalYear = calendar.yearStart fiscalYear + 7 * 52 - 1) ∨
      (calendar.weeksIn fiscalYear = 53 ∧
        calendar.yearEnd fiscalYear = calendar.yearStart fiscalYear + 7 * 53 - 1) := by
  rw [weeksIn]
  rcases calendar.year_weeks fiscalYear with fewer | more
  · exact .inl ⟨by omega, fewer⟩
  · exact .inr ⟨by omega, more⟩

structure PeriodsOf (weeks : List ℕ) (total : ℕ) : Prop where
  twelve : weeks.length = 12
  positive : ∀ period ∈ weeks, 1 ≤ period
  together : upTo weeks 12 = total

theorem periods_of_pattern (pattern : Pattern) :
    PeriodsOf (List.replicate 4 (weeksOf pattern)).flatten 52 ∧
      PeriodsOf ((List.replicate 4 (weeksOf pattern)).flatten.modify
        ((List.replicate 4 (weeksOf pattern)).flatten.length - 1) (· + 1)) 53 := by
  cases pattern <;> exact ⟨⟨by decide, by decide, by decide⟩, ⟨by decide, by decide, by decide⟩⟩

theorem periodWeeks_spec (fiscalYear : ℤ) :
    ∃ total : ℕ, PeriodsOf (calendar.periodWeeks fiscalYear) total ∧
      calendar.weeksIn fiscalYear = total ∧
      calendar.yearEnd fiscalYear = calendar.yearStart fiscalYear + 7 * total - 1 := by
  have periods := periods_of_pattern calendar.pattern
  rcases calendar.weeksIn_cases fiscalYear with ⟨fewer, ends⟩ | ⟨more, ends⟩
  · refine ⟨52, ?_, fewer, ends⟩
    rw [periodWeeks, fewer]
    exact periods.1
  · refine ⟨53, ?_, more, ends⟩
    rw [periodWeeks, more]
    exact periods.2

theorem period_eq_stretch (fiscalYear : ℤ) (isPeriod : 1 ≤ number ∧ number ≤ 12) :
    calendar.period fiscalYear number =
      stretch (calendar.yearStart fiscalYear) 7 (calendar.periodWeeks fiscalYear) number := by
  have grown := upTo_succ (calendar.periodWeeks fiscalYear) (number - 1)
  have sameNumber : number - 1 + 1 = number := by omega
  rw [sameNumber] at grown
  simp only [period, week, stretch, Prod.mk.injEq]
  omega

theorem periods_tile (fiscalYear : ℤ) :
    Tiles (calendar.period fiscalYear) 12 (calendar.year fiscalYear) := by
  obtain ⟨total, periods, -, ends⟩ := calendar.periodWeeks_spec fiscalYear
  have someWeeks : 1 ≤ (calendar.periodWeeks fiscalYear).length := by
    rw [periods.twelve]
    omega
  have tiles := stretch_tiles (calendar.yearStart fiscalYear) (by omega : 1 ≤ 7) someWeeks
    periods.positive
  rw [periods.twelve, periods.together] at tiles
  have wholeYear : calendar.year fiscalYear = (calendar.yearStart fiscalYear,
      calendar.yearStart fiscalYear + (7 : ℕ) * total - 1) := by
    rw [year, ends]
    rfl
  rw [wholeYear]
  apply tiles.congr
  intro number atLeast atMost
  exact calendar.period_eq_stretch fiscalYear ⟨atLeast, atMost⟩

theorem quarter_eq_grouped (fiscalYear : ℤ) (isQuarter : 1 ≤ number) :
    calendar.quarter fiscalYear number = grouped (calendar.period fiscalYear) 3 number := by
  have first : 3 * number - 2 = 3 * (number - 1) + 1 := by omega
  rw [quarter, grouped, first]

theorem quarters_tile (fiscalYear : ℤ) :
    Tiles (calendar.quarter fiscalYear) 4 (calendar.year fiscalYear) := by
  apply (@Tiles.grouped _ 3 4 _ (calendar.periods_tile fiscalYear)).congr
  intro number atLeast _
  exact calendar.quarter_eq_grouped fiscalYear atLeast

theorem seasons_tile (fiscalYear : ℤ) :
    Tiles (calendar.season fiscalYear) 2 (calendar.year fiscalYear) := by
  apply (@Tiles.grouped _ 2 2 _ (calendar.quarters_tile fiscalYear)).congr
  intro half atLeast _
  have first : 2 * half - 1 = 2 * (half - 1) + 1 := by omega
  rw [season, grouped, first]

theorem countPeriods_spec {week : ℤ} {weeks : List ℕ} {period : ℕ}
    (isPeriod : 1 ≤ period ∧ period ≤ weeks.length) (started : upTo weeks (period - 1) < week)
    (within : week ≤ upTo weeks weeks.length) :
    ∃ found, countPeriods week period (upTo weeks period) (weeks.drop period) = some found ∧
      (1 ≤ found ∧ found ≤ weeks.length) ∧ upTo weeks (found - 1) < week ∧
        week ≤ upTo weeks found := by
  induction left : weeks.drop period generalizing period with
  | nil =>
    have isLast : weeks.length = period := Nat.le_antisymm (drop_eq_nil_iff.mp left) isPeriod.2
    rw [isLast] at within
    exact ⟨period, if_pos within, isPeriod, started, within⟩
  | cons next rest ih =>
    rw [countPeriods]
    by_cases reached : week ≤ upTo weeks period
    · exact ⟨period, if_pos reached, isPeriod, started, reached⟩
    · rw [if_neg reached]
      have isIndex : period < weeks.length := by
        by_contra beyond
        rw [drop_eq_nil_of_le (by omega)] at left
        cases left
      obtain ⟨isNext, isRest⟩ := List.cons.inj ((drop_eq_getElem_cons isIndex).symm.trans left)
      have grown : upTo weeks (period + 1) = upTo weeks period + next := by
        rw [upTo_succ, ← isNext]
        simp [isIndex]
      rw [← grown]
      exact ih ⟨by omega, isIndex⟩ (by rw [Nat.add_sub_cancel]; omega) isRest

theorem position_spec (isYear : calendar.yearOf day = some fiscalYear)
    (inYear : (calendar.year fiscalYear).Holds day) :
    ∃ position, calendar.position day = some position ∧ position.year = fiscalYear ∧
      (calendar.week fiscalYear position.week).Holds day ∧
      (1 ≤ position.period ∧ position.period ≤ 12) ∧
      (calendar.period fiscalYear position.period).Holds day ∧
      position.quarter = (position.period - 1) / 3 + 1 := by
  obtain ⟨total, periods, -, ends⟩ := calendar.periodWeeks_spec fiscalYear
  have started : calendar.yearStart fiscalYear ≤ day := inYear.1
  have notOver : day ≤ calendar.yearEnd fiscalYear := inYear.2
  have firstWeek : upTo (calendar.periodWeeks fiscalYear) (1 - 1) <
      (day - calendar.yearStart fiscalYear) / 7 + 1 := by
    rw [Nat.sub_self, upTo_zero]
    omega
  have lastWeek : (day - calendar.yearStart fiscalYear) / 7 + 1 ≤
      upTo (calendar.periodWeeks fiscalYear) (calendar.periodWeeks fiscalYear).length := by
    rw [periods.twelve, periods.together]
    omega
  have isFirst : 1 ≤ 1 ∧ 1 ≤ (calendar.periodWeeks fiscalYear).length := by
    rw [periods.twelve]
    omega
  obtain ⟨period, counted, isPeriod, after, upToHere⟩ :=
    countPeriods_spec isFirst firstWeek lastWeek
  have firstSeen : upTo (calendar.periodWeeks fiscalYear) 1 =
      (calendar.periodWeeks fiscalYear).getD 0 0 := by
    rw [upTo_succ, upTo_zero, Nat.zero_add]
  rw [firstSeen, drop_one] at counted
  rw [periods.twelve] at isPeriod
  refine ⟨⟨fiscalYear, (day - calendar.yearStart fiscalYear) / 7 + 1, period,
    (period - 1) / 3 + 1⟩, ?_, rfl, ?_, isPeriod, ?_, rfl⟩
  · simp only [position, isYear, Option.bind_some, counted, Option.map_some]
  · simp only [week, Range.Holds]
    omega
  · rw [calendar.period_eq_stretch fiscalYear isPeriod]
    simp only [stretch, Range.Holds]
    omega

/-- The fiscal years partition the days, each into whole weeks, periods, quarters and seasons,
and a day's position names those that it stands in. -/
theorem calendar_partitions (day : ℤ) :
    ∃ fiscalYear, calendar.yearOf day = some fiscalYear ∧
      (∀ other, (calendar.year other).Holds day ↔ other = fiscalYear) ∧
      (∃ weeks : ℤ, (weeks = 52 ∨ weeks = 53) ∧ calendar.weeksIn fiscalYear = weeks ∧
        calendar.yearEnd fiscalYear = calendar.yearStart fiscalYear + 7 * weeks - 1) ∧
      Tiles (calendar.period fiscalYear) 12 (calendar.year fiscalYear) ∧
      Tiles (calendar.quarter fiscalYear) 4 (calendar.year fiscalYear) ∧
      Tiles (calendar.season fiscalYear) 2 (calendar.year fiscalYear) ∧
      ∃ position, calendar.position day = some position ∧ position.year = fiscalYear ∧
        (∀ number, (calendar.week fiscalYear number).Holds day ↔ number = position.week) ∧
        (∀ number, 1 ≤ number → number ≤ 12 →
          ((calendar.period fiscalYear number).Holds day ↔ number = position.period)) ∧
        ∀ number, 1 ≤ number → number ≤ 4 →
          ((calendar.quarter fiscalYear number).Holds day ↔ number = position.quarter) := by
  obtain ⟨fiscalYear, isYear, inYear⟩ := calendar.yearOf_eq_some day
  obtain ⟨position, isPosition, samePositionYear, inWeek, isPeriod, inPeriod, isQuarter⟩ :=
    calendar.position_spec isYear inYear
  have periods := calendar.periods_tile fiscalYear
  have quarters := calendar.quarters_tile fiscalYear
  refine ⟨fiscalYear, isYear, ?_, ?_, periods, quarters, calendar.seasons_tile fiscalYear,
    position, isPosition, samePositionYear, ?_, periods.holds_iff isPeriod inPeriod, ?_⟩
  · intro other
    constructor
    · intro inOther
      exact calendar.year_unique inOther inYear
    · intro same
      rw [same]
      exact inYear
  · rcases calendar.weeksIn_cases fiscalYear with ⟨fewer, ends⟩ | ⟨more, ends⟩
    · exact ⟨52, .inl rfl, fewer, ends⟩
    · exact ⟨53, .inr rfl, more, ends⟩
  · intro number
    simp only [week, Range.Holds] at inWeek ⊢
    omega
  · obtain ⟨isGroup, inGroup⟩ := @Tiles.holds_grouped _ 3 4 _ periods _ _ isPeriod inPeriod
    rw [← isQuarter] at isGroup inGroup
    rw [← calendar.quarter_eq_grouped fiscalYear isGroup.1] at inGroup
    exact quarters.holds_iff isGroup inGroup

end FiscalCalendar

end MemoryService.Domain
