import MemoryService.Domain.FiscalDates

/-!
# The last, this and the next of a unit

A relative phrase is resolved against the position of the day it was said on.
-/

namespace MemoryService.Domain

open Foundation Foundation.Gregorian Option List

/-- `FiscalPosition.half` -/
def FiscalPosition.half (now : FiscalPosition) : ℕ := if now.quarter ≤ 2 then 1 else 2

/-- The days that a phrase names and the unit of the calendar they are. -/
abbrev Resolved := Range × String

/-- `_shift` -/
def shift (year : ℤ) (number : ℕ) (step : ℤ) (perYear : ℕ) : ℤ × ℕ :=
  let index := year * perYear + (number - 1) + step
  (index / perYear, (index % perYear).toNat + 1)

/-- How far each word goes. -/
def directionSteps : List (String × ℤ) :=
  [("last", -1), ("previous", -1), ("prior", -1), ("this", 0), ("current", 0), ("next", 1)]

def yearLabel (year : ℤ) : String := "FY" ++ toString year

def weekLabel (year week : ℤ) : String := yearLabel year ++ " W" ++ toString week

def periodLabel (year : ℤ) (period : ℕ) : String := yearLabel year ++ " P" ++ toString period

def quarterLabel (year : ℤ) (quarter : ℕ) : String := yearLabel year ++ " Q" ++ toString quarter

def seasonLabel (year : ℤ) (half : ℕ) : String :=
  yearLabel year ++ if half = 1 then " spring" else " fall"

namespace Dated

variable (calendar : FiscalCalendar)

/-- `_relative`, so many steps from now. -/
def stepped (step : ℤ) (unit : String) (now : FiscalPosition) : Except DateError Resolved :=
  if unit = "week" then
    (week calendar now.year now.week).bind fun today =>
      (shifted today.1 (7 * step)).bind fun start =>
        (position calendar start).bind fun p =>
          (shifted start 6).map fun last => ((start, last), weekLabel p.year p.week)
  else if unit = "month" ∨ unit = "period" then
    let at_ := shift now.year now.period step 12
    (period calendar at_.1 at_.2).map fun range => (range, periodLabel at_.1 at_.2)
  else if unit = "quarter" then
    let at_ := shift now.year now.quarter step 4
    (quarter calendar at_.1 at_.2).map fun range => (range, quarterLabel at_.1 at_.2)
  else if unit = "season" then
    let at_ := shift now.year now.half step 2
    (season calendar at_.1 at_.2).map fun range => (range, seasonLabel at_.1 at_.2)
  else (year calendar (now.year + step)).map fun range => (range, yearLabel (now.year + step))

/-- `_relative`; a word that the table does not hold is a `KeyError`. -/
def relative (which unit : String) (now : FiscalPosition) : Except DateError Resolved :=
  match directionSteps.lookup which with
  | none => .error .keyError
  | some step => stepped calendar step unit now

/-- `_short` -/
def short (word : String) (now : FiscalPosition) : Except DateError Resolved :=
  (week calendar now.year now.week).bind fun todayWeek =>
    if word = "lw" ∨ word = "tw" ∨ word = "wtd" then
      relative calendar (if word = "lw" then "last" else "this") "week" now
    else if word = "lm" ∨ word = "mtd" then
      relative calendar (if word = "lm" then "last" else "this") "month" now
    else if word = "lq" ∨ word = "qtd" then
      relative calendar (if word = "lq" then "last" else "this") "quarter" now
    else if word = "ly" ∨ word = "ty" then
      relative calendar (if word = "ly" then "last" else "this") "year" now
    else if word = "ytd" then
      (yearStart calendar now.year).map fun start =>
        ((start, todayWeek.2), yearLabel now.year ++ " W1-W" ++ toString now.week)
    else
      let last := now.year - 1
      (weeksIn calendar last).bind fun inYear =>
        let upTo := min now.week inYear
        (yearStart calendar last).bind fun start =>
          (week calendar last upTo).map fun lastWeek =>
            ((start, lastWeek.2), yearLabel last ++ " W1-W" ++ toString upTo)

end Dated

namespace FiscalCalendar

variable (calendar : FiscalCalendar)

def unitAt (unit : String) (now : FiscalPosition) (step : ℤ) : Range :=
  if unit = "week" then
    ((calendar.week now.year now.week).1 + 7 * step,
      (calendar.week now.year now.week).1 + 7 * step + 6)
  else if unit = "month" ∨ unit = "period" then
    calendar.period (shift now.year now.period step 12).1 (shift now.year now.period step 12).2
  else if unit = "quarter" then
    calendar.quarter (shift now.year now.quarter step 4).1 (shift now.year now.quarter step 4).2
  else if unit = "season" then
    calendar.season (shift now.year now.half step 2).1 (shift now.year now.half step 2).2
  else calendar.year (now.year + step)

def IsUnit (unit : String) (range : Range) : Prop :=
  if unit = "week" then
    ∃ fiscalYear number, (1 ≤ number ∧ number ≤ calendar.weeksIn fiscalYear) ∧
      range = calendar.week fiscalYear number
  else if unit = "month" ∨ unit = "period" then
    ∃ fiscalYear number, (1 ≤ number ∧ number ≤ 12) ∧ range = calendar.period fiscalYear number
  else if unit = "quarter" then
    ∃ fiscalYear number, (1 ≤ number ∧ number ≤ 4) ∧ range = calendar.quarter fiscalYear number
  else if unit = "season" then
    ∃ fiscalYear half, (1 ≤ half ∧ half ≤ 2) ∧ range = calendar.season fiscalYear half
  else ∃ fiscalYear, range = calendar.year fiscalYear

variable {calendar} {unit : String} {day fiscalYear : ℤ} {now : FiscalPosition} {count : ℕ}
  {start : ℤ}

theorem shift_next {part : ℤ → ℕ → Range} {whole : ℤ → Range}
    (tiles : ∀ n, Tiles (part n) count (whole n))
    (onward : ∀ n, (whole (n + 1)).1 = (whole n).2 + 1) (year : ℤ) (number : ℕ) (step : ℤ) :
    (part (shift year number (step + 1) count).1 (shift year number (step + 1) count).2).1 =
      (part (shift year number step count).1 (shift year number step count).2).2 + 1 := by
  have next := partAt_next tiles onward (year * count + (number - 1) + step)
  rw [Int.add_assoc _ step] at next
  exact next

theorem shift_zero {number : ℕ} (part : ℤ → ℕ → Range) (year : ℤ)
    (isPart : 1 ≤ number ∧ number ≤ count) :
    part (shift year number 0 count).1 (shift year number 0 count).2 = part year number := by
  have own := @partAt_own part count (by omega) year _ isPart
  rw [← Int.add_zero (year * count + (number - 1))] at own
  exact own

theorem shift_number (somePart : 1 ≤ count) (year : ℤ) (number : ℕ) (step : ℤ) :
    1 ≤ (shift year number step count).2 ∧ (shift year number step count).2 ≤ count :=
  partAt_number somePart _

theorem years_onward (fiscalYear : ℤ) :
    (calendar.year (fiscalYear + 1)).1 = (calendar.year fiscalYear).2 + 1 := by
  rw [year, year, yearStart, Int.add_sub_cancel]

theorem unitAt_next (unit : String) (now : FiscalPosition) (step : ℤ) :
    (calendar.unitAt unit now (step + 1)).1 = (calendar.unitAt unit now step).2 + 1 := by
  rw [unitAt, unitAt]
  split
  case isTrue _ => omega
  case isFalse _ =>
    split
    case isTrue _ => exact shift_next calendar.periods_tile years_onward _ _ _
    case isFalse _ =>
      split
      case isTrue _ => exact shift_next calendar.quarters_tile years_onward _ _ _
      case isFalse _ =>
        split
        case isTrue _ => exact shift_next calendar.seasons_tile years_onward _ _ _
        case isFalse _ =>
          rw [← Int.add_assoc]
          exact years_onward _

structure Stands (calendar : FiscalCalendar) (day : ℤ) (now : FiscalPosition) : Prop where
  inYear : (calendar.year now.year).Holds day
  isWeek : 1 ≤ now.week ∧ now.week ≤ calendar.weeksIn now.year
  inWeek : (calendar.week now.year now.week).Holds day
  isPeriod : 1 ≤ now.period ∧ now.period ≤ 12
  inPeriod : (calendar.period now.year now.period).Holds day
  isQuarter : 1 ≤ now.quarter ∧ now.quarter ≤ 4
  inQuarter : (calendar.quarter now.year now.quarter).Holds day
  isHalf : 1 ≤ now.half ∧ now.half ≤ 2
  inSeason : (calendar.season now.year now.half).Holds day

theorem season_eq_grouped (fiscalYear : ℤ) {half : ℕ} (isHalf : 1 ≤ half) :
    calendar.season fiscalYear half = grouped (calendar.quarter fiscalYear) 2 half := by
  have first : 2 * half - 1 = 2 * (half - 1) + 1 := by omega
  rw [season, grouped, first]

theorem stands_of_position (isNow : calendar.position day = some now) :
    calendar.Stands day now := by
  obtain ⟨held, isHeld, inYear⟩ := calendar.yearOf_eq_some day
  obtain ⟨found, isFound, sameYear, inWeek, isPeriod, inPeriod, isQuarter⟩ :=
    calendar.position_spec isHeld inYear
  have same : found = now := some_inj.mp (isFound.symm.trans isNow)
  subst same
  rw [← sameYear] at inYear inWeek inPeriod
  obtain ⟨quarterRange, inQuarter⟩ :=
    @Tiles.holds_grouped _ 3 4 _ (calendar.periods_tile found.year) _ _ isPeriod inPeriod
  rw [← isQuarter] at quarterRange inQuarter
  rw [← calendar.quarter_eq_grouped found.year quarterRange.1] at inQuarter
  obtain ⟨halfRange, inSeason⟩ :=
    @Tiles.holds_grouped _ 2 2 _ (calendar.quarters_tile found.year) _ _ quarterRange inQuarter
  have isHalf : (found.quarter - 1) / 2 + 1 = found.half := by
    rw [FiscalPosition.half]
    split <;> omega
  rw [isHalf] at halfRange inSeason
  rw [← calendar.season_eq_grouped found.year halfRange.1] at inSeason
  have weekRange : 1 ≤ found.week ∧ found.week ≤ calendar.weeksIn found.year := by
    obtain ⟨total, -, isTotal, ends⟩ := calendar.periodWeeks_spec found.year
    obtain ⟨started, notOver⟩ : calendar.yearStart found.year ≤ day ∧
        day ≤ calendar.yearEnd found.year := inYear
    simp only [week, Range.Holds] at inWeek
    omega
  exact ⟨inYear, weekRange, inWeek, isPeriod, inPeriod, quarterRange, inQuarter, halfRange,
    inSeason⟩

theorem Stands.unitAt_zero (stands : calendar.Stands day now) (unit : String) :
    (calendar.unitAt unit now 0).Holds day := by
  rw [unitAt]
  split
  case isTrue _ =>
    have inWeek := stands.inWeek
    simp only [week, Range.Holds] at inWeek ⊢
    omega
  case isFalse _ =>
    split
    case isTrue _ =>
      rw [shift_zero calendar.period _ stands.isPeriod]
      exact stands.inPeriod
    case isFalse _ =>
      split
      case isTrue _ =>
        rw [shift_zero calendar.quarter _ stands.isQuarter]
        exact stands.inQuarter
      case isFalse _ =>
        split
        case isTrue _ =>
          rw [shift_zero calendar.season _ stands.isHalf]
          exact stands.inSeason
        case isFalse _ =>
          rw [Int.add_zero]
          exact stands.inYear

theorem week_of_start {number : ℤ} {other : FiscalPosition}
    (isStart : ∃ steps, start = (calendar.week fiscalYear number).1 + 7 * steps)
    (stands : calendar.Stands start other) :
    (start, start + 6) = calendar.week other.year other.week := by
  obtain ⟨steps, isStart⟩ := isStart
  have first := (calendar.yearEnd_spec (fiscalYear - 1)).1
  have second := (calendar.yearEnd_spec (other.year - 1)).1
  have inWeek := stands.inWeek
  simp only [week, Range.Holds, yearStart] at isStart inWeek ⊢
  simp only [weekday] at first second
  simp only [Prod.mk.injEq]
  omega

theorem isUnit_unitAt (unit : String) (now : FiscalPosition) (step : ℤ) :
    calendar.IsUnit unit (calendar.unitAt unit now step) := by
  rw [IsUnit, unitAt]
  split
  case isTrue _ =>
    obtain ⟨held, isHeld, inYear⟩ := calendar.yearOf_eq_some
      ((calendar.week now.year now.week).1 + 7 * step)
    obtain ⟨other, isOther, -⟩ := calendar.position_spec isHeld inYear
    have stands := stands_of_position isOther
    exact ⟨other.year, other.week, stands.isWeek, week_of_start ⟨step, rfl⟩ stands⟩
  case isFalse _ =>
    split
    case isTrue _ => exact ⟨_, _, shift_number (by omega) _ _ _, rfl⟩
    case isFalse _ =>
      split
      case isTrue _ => exact ⟨_, _, shift_number (by omega) _ _ _, rfl⟩
      case isFalse _ =>
        split
        case isTrue _ => exact ⟨_, _, shift_number (by omega) _ _ _, rfl⟩
        case isFalse _ => exact ⟨_, rfl⟩

end FiscalCalendar

namespace Dated

variable {calendar : FiscalCalendar} {day fiscalYear : ℤ} {now : FiscalPosition} {unit : String}
  {step : ℤ} {found : Resolved}

theorem eq_of_position (isNow : position calendar day = .ok now) :
    calendar.position day = some now := by
  obtain ⟨held, other, -, isOther, -, -, ok, fails⟩ := @position_cases calendar day
  by_cases placed : Placed calendar day
  · rw [ok placed] at isNow
    obtain rfl := Except.ok.inj isNow
    exact isOther
  · obtain ⟨raised, isRaised⟩ := fails placed
    rw [isRaised] at isNow
    cases isNow

theorem known_of_position (isNow : position calendar day = .ok now) : Known calendar now.year := by
  obtain ⟨held, other, isHeld, isOther, -, sameYear, -, fails⟩ := @position_cases calendar day
  obtain rfl := some_inj.mp (isOther.symm.trans (eq_of_position isNow))
  by_contra unknown
  have notPlaced : ¬Placed calendar day := fun placed => unknown (sameYear ▸ placed.2 held isHeld)
  obtain ⟨raised, isRaised⟩ := fails notPlaced
  rw [isRaised] at isNow
  cases isNow

def Reached (calendar : FiscalCalendar) (unit : String) (now : FiscalPosition) (step : ℤ) : Prop :=
  if unit = "week" then Placed calendar ((calendar.week now.year now.week).1 + 7 * step)
  else if unit = "month" ∨ unit = "period" then
    Known calendar (shift now.year now.period step 12).1
  else if unit = "quarter" then Known calendar (shift now.year now.quarter step 4).1
  else if unit = "season" then Known calendar (shift now.year now.half step 2).1
  else Known calendar (now.year + step)
deriving Decidable

theorem week_held {number : ℤ}
    (isStart : ∃ steps, start = (calendar.week fiscalYear number).1 + 7 * steps)
    (placed : Placed calendar start) : 1 ≤ start ∧ start + 6 ≤ maxDay := by
  obtain ⟨held, other, isHeld, isOther, -, sameYear, -, -⟩ := @position_cases calendar start
  have stands := FiscalCalendar.stands_of_position isOther
  have known : Known calendar other.year := sameYear ▸ placed.2 held isHeld
  have sameWeek := FiscalCalendar.week_of_start isStart stands
  have isWeek := stands.isWeek
  have dates := days_held known
  obtain ⟨total, -, isTotal, ends⟩ := calendar.periodWeeks_spec other.year
  rw [FiscalCalendar.week, Prod.mk.injEq] at sameWeek
  omega

theorem stepped_cases (stands : calendar.Stands day now) (known : Known calendar now.year)
    (unit : String) (step : ℤ) :
    (Reached calendar unit now step →
        ∃ label, stepped calendar step unit now = .ok (calendar.unitAt unit now step, label)) ∧
      (¬Reached calendar unit now step →
        ∃ raised, stepped calendar step unit now = .error raised) := by
  rw [Reached, stepped, FiscalCalendar.unitAt]
  split
  case isTrue _ =>
    have aWeek := week_ok known stands.isWeek
    rw [aWeek]
    obtain ⟨-, other, -, -, -, -, ok, fails⟩ := @position_cases calendar
      ((calendar.week now.year now.week).1 + 7 * step)
    refine ⟨fun placed => ?_, fun notPlaced => ?_⟩
    · have held := week_held ⟨step, rfl⟩ placed
      refine ⟨weekLabel other.year other.week, ?_⟩
      rw [Except.bind, shifted_ok (by omega), Except.bind, ok placed, Except.bind,
        shifted_ok (by omega)]
      rfl
    · rw [Except.bind, shifted]
      split
      case isTrue _ =>
        obtain ⟨raised, isRaised⟩ := fails notPlaced
        rw [Except.bind, isRaised]
        exact ⟨raised, rfl⟩
      case isFalse _ => exact ⟨.overflowError, rfl⟩
  case isFalse _ =>
    split
    case isTrue _ =>
      refine ⟨fun yearKnown => ?_, fun unknown => ?_⟩
      · dsimp only
        rw [period_ok yearKnown (FiscalCalendar.shift_number (by omega) _ _ _)]
        exact ⟨_, rfl⟩
      · obtain ⟨raised, isRaised⟩ := period_fails (shift now.year now.period step 12).2 unknown
        dsimp only
        rw [isRaised]
        exact ⟨raised, rfl⟩
    case isFalse _ =>
      split
      case isTrue _ =>
        refine ⟨fun yearKnown => ?_, fun unknown => ?_⟩
        · dsimp only
          rw [quarter_ok yearKnown (FiscalCalendar.shift_number (by omega) _ _ _)]
          exact ⟨_, rfl⟩
        · obtain ⟨raised, isRaised⟩ := quarter_fails (shift now.year now.quarter step 4).2 unknown
          dsimp only
          rw [isRaised]
          exact ⟨raised, rfl⟩
      case isFalse _ =>
        split
        case isTrue _ =>
          refine ⟨fun yearKnown => ?_, fun unknown => ?_⟩
          · dsimp only
            rw [season_ok yearKnown (FiscalCalendar.shift_number (by omega) _ _ _)]
            exact ⟨_, rfl⟩
          · obtain ⟨raised, isRaised⟩ := season_fails (shift now.year now.half step 2).2 unknown
            dsimp only
            rw [isRaised]
            exact ⟨raised, rfl⟩
        case isFalse _ =>
          refine ⟨fun yearKnown => ?_, fun unknown => ?_⟩
          · rw [year_ok yearKnown]
            exact ⟨_, rfl⟩
          · obtain ⟨raised, isRaised⟩ := year_fails unknown
            rw [isRaised]
            exact ⟨raised, rfl⟩

theorem range_of_stepped (stands : calendar.Stands day now) (known : Known calendar now.year)
    (answered : stepped calendar step unit now = .ok found) :
    found.1 = calendar.unitAt unit now step := by
  obtain ⟨ok, fails⟩ := stepped_cases stands known unit step
  by_cases reached : Reached calendar unit now step
  · obtain ⟨label, isOk⟩ := ok reached
    rw [isOk] at answered
    rw [← Except.ok.inj answered]
  · obtain ⟨raised, isRaised⟩ := fails reached
    rw [isRaised] at answered
    cases answered

theorem yearOfDay_near {first second : ℤ} (near : first - 300 ≤ second ∧ second ≤ first + 300) :
    yearOfDay first - 1 ≤ yearOfDay second ∧ yearOfDay second ≤ yearOfDay first + 1 := by
  have firstSpec := yearOfDay_spec first
  have secondSpec := yearOfDay_spec second
  simp only [daysBeforeYear] at firstSpec secondSpec
  omega

theorem known_near {year : ℤ} (inside : 3 ≤ year ∧ year ≤ 9997) : Known calendar year := by
  simp only [Known, Ended, FiscalCalendar.calendarYear]
  constructor
  · split <;> split <;> omega
  · split <;> split <;> omega

theorem held_near (isHeld : calendar.yearOf day = some fiscalYear) :
    yearOfDay day - 2 ≤ fiscalYear ∧ fiscalYear ≤ yearOfDay day + 2 := by
  rw [FiscalCalendar.yearOf] at isHeld
  have tried := mem_of_find?_eq_some isHeld
  simp only [mem_cons, not_mem_nil, or_false] at tried
  split at tried <;> omega

theorem placed_near (inside : 5 ≤ yearOfDay day ∧ yearOfDay day ≤ 9995) : Placed calendar day := by
  constructor
  · apply known_near
    rw [guess]
    split <;> omega
  · intro fiscalYear isHeld
    have near := held_near isHeld
    exact known_near (by omega)

theorem reached_near (isNow : position calendar day = .ok now)
    (inside : 6 ≤ yearOfDay day ∧ yearOfDay day ≤ 9993) (oneStep : -1 ≤ step ∧ step ≤ 1) :
    Reached calendar unit now step := by
  have isPosition := eq_of_position isNow
  have stands := FiscalCalendar.stands_of_position isPosition
  obtain ⟨held, other, isHeld, isOther, -, sameYear, -, -⟩ := @position_cases calendar day
  obtain rfl := some_inj.mp (isOther.symm.trans isPosition)
  have near := held_near isHeld
  rw [← sameYear] at near
  have quarters := stands.isQuarter
  have halves := stands.isHalf
  have periods := stands.isPeriod
  rw [Reached]
  split
  case isTrue _ =>
    apply placed_near
    have inWeek := stands.inWeek
    simp only [FiscalCalendar.week, Range.Holds] at inWeek ⊢
    have nearDay := @yearOfDay_near day
      (calendar.yearStart other.year + 7 * (other.week - 1) + 7 * step) (by omega)
    omega
  case isFalse _ =>
    split
    case isTrue _ =>
      apply known_near
      simp only [shift]
      omega
    case isFalse _ =>
      split
      case isTrue _ =>
        apply known_near
        simp only [shift]
        omega
      case isFalse _ =>
        split
        case isTrue _ =>
          apply known_near
          simp only [shift]
          omega
        case isFalse _ =>
          apply known_near
          omega

/-- The last, this and the next of a unit are units of the calendar that lie end to end, and this
one holds the day; away from the first and the last years that a date can have, all three are
resolved. -/
theorem relative_units_adjoin (calendar : FiscalCalendar) (day : ℤ) (unit : String) :
    (∀ now last this next, position calendar day = .ok now →
        relative calendar "last" unit now = .ok last →
        relative calendar "this" unit now = .ok this →
        relative calendar "next" unit now = .ok next →
          last.1.2 + 1 = this.1.1 ∧ this.1.2 + 1 = next.1.1 ∧ this.1.Holds day ∧
            calendar.IsUnit unit last.1 ∧ calendar.IsUnit unit this.1 ∧
            calendar.IsUnit unit next.1) ∧
      (6 ≤ yearOfDay day → yearOfDay day ≤ 9993 →
        ∃ now, position calendar day = .ok now ∧
          ∀ which ∈ ["last", "this", "next"], ∃ found,
            relative calendar which unit now = .ok found) := by
  constructor
  · intro now last this next isNow isLast isThis isNext
    have stands := FiscalCalendar.stands_of_position (eq_of_position isNow)
    have known := known_of_position isNow
    have lastRange := @range_of_stepped calendar _ _ _ (-1) _ stands known isLast
    have thisRange := @range_of_stepped calendar _ _ _ 0 _ stands known isThis
    have nextRange := @range_of_stepped calendar _ _ _ 1 _ stands known isNext
    have beforeThis := @FiscalCalendar.unitAt_next calendar unit now (-1)
    have afterThis := @FiscalCalendar.unitAt_next calendar unit now 0
    rw [lastRange, thisRange, nextRange]
    exact ⟨beforeThis.symm, afterThis.symm, stands.unitAt_zero unit,
      FiscalCalendar.isUnit_unitAt unit now (-1), FiscalCalendar.isUnit_unitAt unit now 0,
      FiscalCalendar.isUnit_unitAt unit now 1⟩
  · intro atLeast atMost
    obtain ⟨held, now, -, isPosition, -, -, ok, -⟩ := @position_cases calendar day
    have isNow := ok (placed_near (by omega))
    refine ⟨now, isNow, ?_⟩
    have stands := FiscalCalendar.stands_of_position isPosition
    have known := known_of_position isNow
    have resolves : ∀ step, -1 ≤ step → step ≤ 1 →
        ∃ found, stepped calendar step unit now = .ok found := by
      intro step notBefore notAfter
      obtain ⟨label, isOk⟩ := (stepped_cases stands known unit step).1
        (reached_near isNow ⟨atLeast, atMost⟩ ⟨notBefore, notAfter⟩)
      exact ⟨_, isOk⟩
    intro which isWord
    simp only [mem_cons, not_mem_nil, or_false] at isWord
    rcases isWord with rfl | rfl | rfl
    · exact resolves (-1) (by omega) (by omega)
    · exact resolves 0 (by omega) (by omega)
    · exact resolves 1 (by omega) (by omega)

/-- The last day of a year of 53 weeks. -/
theorem relative_units_adjoin_lastDay :
    (738912 : ℤ) + 1 = 738913 ∧ (738919 : ℤ) + 1 = 738920 ∧
      Range.Holds (738913, 738919) 738919 ∧
      FiscalCalendar.IsUnit {} "week" (738906, 738912) ∧
      FiscalCalendar.IsUnit {} "week" (738913, 738919) ∧
      FiscalCalendar.IsUnit {} "week" (738920, 738926) :=
  (relative_units_adjoin {} 738919 "week").1
    { year := 2023, week := 53, period := 12, quarter := 4 }
    ((738906, 738912), "FY2023 W52") ((738913, 738919), "FY2023 W53")
    ((738920, 738926), "FY2024 W1") (by decide +kernel) (by decide +kernel) (by decide +kernel)
    (by decide +kernel)

end Dated

end MemoryService.Domain
