import Mathlib.Data.Int.Notation
import Mathlib.Data.Nat.Notation

/-!
# Days of the Gregorian calendar

A day is its ordinal: 1 is the first of January of year 1, a Monday.  The calendar is carried on
in both directions, so every whole number is a day and every whole number is a year.
-/

namespace MemoryService.Foundation.Gregorian

variable (year : ℤ)

def isLeap : Bool := year % 4 = 0 && (year % 100 ≠ 0 || year % 400 = 0)

def leapDay : ℤ := if isLeap year then 1 else 0

def daysBeforeYear : ℤ := (year - 1) * 365 + (year - 1) / 4 - (year - 1) / 100 + (year - 1) / 400

def daysBeforeMonths : List ℤ := [0, 31, 59, 90, 120, 151, 181, 212, 243, 273, 304, 334]

def daysBeforeMonth (month : ℕ) : ℤ :=
  daysBeforeMonths.getD (month - 1) 0 + if 2 < month then leapDay year else 0

/-- `date(year, month, day)`. -/
def date (month : ℕ) (day : ℤ) : ℤ := daysBeforeYear year + daysBeforeMonth year month + day

variable (day : ℤ)

/-- Monday is 0. -/
def weekday : ℤ := (day + 6) % 7

/-- `day.year`: the cycles of 400, 100, 4 and 1 years before the day, but for the last day of
a leap year. -/
def yearOfDay : ℤ :=
  let n := day - 1
  let n400 := n / 146097
  let n100 := n % 146097 / 36524
  let n4 := n % 146097 % 36524 / 1461
  let n1 := n % 146097 % 36524 % 1461 / 365
  let year := n400 * 400 + 1 + n100 * 100 + n4 * 4 + n1
  if n1 = 4 ∨ n100 = 4 then year - 1 else year

/-- `day.month`: the months of its year that have begun. -/
def monthOf : ℕ :=
  ((List.range 12).filter fun index => date (yearOfDay day) (index + 1) 1 ≤ day).length

/-- `day.day` -/
def dayOf : ℤ := day - date (yearOfDay day) (monthOf day) 1 + 1

/-- The days of the months of an ordinary year. -/
def monthDays : List ℤ := [31, 28, 31, 30, 31, 30, 31, 31, 30, 31, 30, 31]

/-- `calendar.monthrange`, without the weekday -/
def monthrange (month : ℕ) : ℤ :=
  monthDays.getD (month - 1) 0 + if month = 2 then leapDay year else 0

theorem leapDay_cases : leapDay year = 0 ∨ leapDay year = 1 := by
  rw [leapDay]
  split
  · exact .inr rfl
  · exact .inl rfl

theorem monthOf_le : monthOf day ≤ 12 := List.length_filter_le _ _

theorem monthrange_pos {month : ℕ} (isMonth : 1 ≤ month ∧ month ≤ 12) :
    1 ≤ monthrange year month := by
  have long : ∀ index < 12, 28 ≤ monthDays.getD index 0 := by decide
  have days := long (month - 1) (by omega)
  have extra := leapDay_cases year
  rw [monthrange]
  split <;> omega

theorem daysBeforeYear_succ :
    daysBeforeYear (year + 1) = daysBeforeYear year + 365 + leapDay year := by
  rw [daysBeforeYear, daysBeforeYear, leapDay, isLeap]
  split
  · rename_i leap
    simp only [Bool.and_eq_true, Bool.or_eq_true, decide_eq_true_eq] at leap
    omega
  · rename_i common
    simp only [Bool.and_eq_true, Bool.or_eq_true, decide_eq_true_eq] at common
    omega

theorem days_before_cycles {n400 n100 n4 n1 : ℤ} (centuries : 0 ≤ n100 ∧ n100 ≤ 3)
    (fours : 0 ≤ n4 ∧ n4 ≤ 24) (ones : 0 ≤ n1 ∧ n1 ≤ 3) :
    daysBeforeYear (n400 * 400 + 1 + n100 * 100 + n4 * 4 + n1) =
      146097 * n400 + 36524 * n100 + 1461 * n4 + 365 * n1 := by
  have byFour : (n400 * 400 + 1 + n100 * 100 + n4 * 4 + n1 - 1) / 4 =
      100 * n400 + 25 * n100 + n4 := by omega
  have byHundred : (n400 * 400 + 1 + n100 * 100 + n4 * 4 + n1 - 1) / 100 =
      4 * n400 + n100 := by omega
  have byAll : (n400 * 400 + 1 + n100 * 100 + n4 * 4 + n1 - 1) / 400 = n400 := by omega
  rw [daysBeforeYear, byFour, byHundred, byAll]
  omega

theorem yearOfDay_spec :
    daysBeforeYear (yearOfDay day) < day ∧ day ≤ daysBeforeYear (yearOfDay day + 1) := by
  rw [daysBeforeYear_succ]
  simp only [yearOfDay]
  generalize isFirst : (day - 1) / 146097 = n400
  generalize isSecond : (day - 1) % 146097 / 36524 = n100
  generalize isThird : (day - 1) % 146097 % 36524 / 1461 = n4
  generalize isFourth : (day - 1) % 146097 % 36524 % 1461 / 365 = n1
  by_cases lastOfCentury : n100 = 4
  · -- the last day of a year that 400 divides
    have before := @days_before_cycles n400 3 24 3 (by omega) (by omega) (by omega)
    have sameYear : n400 * 400 + 1 + n100 * 100 + n4 * 4 + n1 - 1 =
        n400 * 400 + 1 + 3 * 100 + 24 * 4 + 3 := by omega
    have leap : leapDay (n400 * 400 + 1 + 3 * 100 + 24 * 4 + 3) = 1 := by
      rw [leapDay, isLeap]
      simp only [Bool.and_eq_true, Bool.or_eq_true, decide_eq_true_eq]
      rw [if_pos (by omega)]
    rw [if_pos (.inr lastOfCentury), sameYear, before, leap]
    omega
  · by_cases lastOfFour : n1 = 4
    · -- the last day of another leap year
      have before := @days_before_cycles n400 n100 n4 3 (by omega) (by omega) (by omega)
      have sameYear : n400 * 400 + 1 + n100 * 100 + n4 * 4 + n1 - 1 =
          n400 * 400 + 1 + n100 * 100 + n4 * 4 + 3 := by omega
      have leap : leapDay (n400 * 400 + 1 + n100 * 100 + n4 * 4 + 3) = 1 := by
        rw [leapDay, isLeap]
        simp only [Bool.and_eq_true, Bool.or_eq_true, decide_eq_true_eq]
        rw [if_pos (by omega)]
      rw [if_pos (.inl lastOfFour), sameYear, before, leap]
      omega
    · have before := @days_before_cycles n400 n100 n4 n1 (by omega) (by omega) (by omega)
      have extra := leapDay_cases (n400 * 400 + 1 + n100 * 100 + n4 * 4 + n1)
      rw [if_neg (not_or.mpr ⟨lastOfFour, lastOfCentury⟩), before]
      omega

end MemoryService.Foundation.Gregorian
