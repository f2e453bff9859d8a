import Mathlib.Data.Finset.Image
import Mathlib.Tactic.IntervalCases
import MemoryService.Foundation.Gregorian

/-!
# The period of a question and the days of a memory

A memory is about the day it was observed and the days and ranges that its relative expressions
were resolved to. A question names ranges of days, or a month of any year.
-/

namespace MemoryService.Retrieval

open Foundation

def daysInMonth (year month : ℕ) : ℕ :=
  [31, 28, 31, 30, 31, 30, 31, 31, 30, 31, 30, 31].getD (month - 1) 0 +
    if month = 2 ∧ Gregorian.isLeap year then 1 else 0

/-- `datetime.date` -/
structure Date where
  year : ℕ
  month : ℕ
  day : ℕ
  isYear : 1 ≤ year ∧ year ≤ 9999 := by decide
  isMonth : 1 ≤ month ∧ month ≤ 12 := by decide
  isDay : 1 ≤ day ∧ day ≤ daysInMonth year month := by decide

def Date.Le (first last : Date) : Prop :=
  first.year < last.year ∨ first.year = last.year ∧
    (first.month < last.month ∨ first.month = last.month ∧ first.day ≤ last.day)

instance : LE Date := ⟨Date.Le⟩

instance (first last : Date) : Decidable (first ≤ last) :=
  inferInstanceAs (Decidable (_ ∨ _ ∧ (_ ∨ _ ∧ _)))

variable {first last : Date}

theorem Date.le_iff : first ≤ last ↔
    first.year < last.year ∨ first.year = last.year ∧
      (first.month < last.month ∨ first.month = last.month ∧ first.day ≤ last.day) := Iff.rfl

theorem Date.le_refl (date : Date) : date ≤ date := by
  rw [Date.le_iff]
  omega

theorem Date.le_trans {between : Date} (before : first ≤ between) (after : between ≤ last) :
    first ≤ last := by
  rw [Date.le_iff] at before after ⊢
  omega

theorem Date.le_of_not_le (isLater : ¬last ≤ first) : first ≤ last := by
  rw [Date.le_iff] at isLater ⊢
  omega

abbrev DayRange := Date × Date

def span (range : DayRange) : ℤ :=
  ((range.2.year : ℤ) - range.1.year) * 12 + range.2.month - range.1.month

/-- An entry of `dated_mentions` that is a mapping. -/
structure DatedMention where
  date : Option String

/-- What of a memory's payload is read; a mention that is no mapping is `none`. -/
structure Payload where
  observedAt : Option String := none
  datedMentions : List (Option DatedMention) := []

/-- `value.split(" ", 1)[0]` -/
def beforeSpace (value : List Char) : List Char := value.takeWhile (· ≠ ' ')

/-- `value.partition("..")`, without the separator -/
def partition : List Char → List Char × List Char
  | '.' :: '.' :: rest => ([], rest)
  | c :: rest => (c :: (partition rest).1, (partition rest).2)
  | [] => ([], [])

section

-- `_date`: the day that a text in the form `%Y-%m-%d` is
variable (dateOf : List Char → Option Date)

def mentioned (mention : DatedMention) : Option DayRange :=
  let value := partition (beforeSpace (mention.date.getD "").toList)
  match dateOf value.1, dateOf (if value.2 = [] then value.1 else value.2) with
  | some first, some last => some (first, last)
  | _, _ => none

def memoryDays (payload : Payload) : List DayRange :=
  ((dateOf ((payload.observedAt.getD "").toList.take 10)).map fun said => (said, said)).toList ++
    payload.datedMentions.reduceOption.filterMap (mentioned dateOf)

def monthsOf (range : DayRange) : List ℕ :=
  (List.range (min (span range) 11 + 1).toNat).map fun k => (range.1.month - 1 + k) % 12

def monthsDated (payload : Payload) : Finset ℕ :=
  ((memoryDays dateOf payload).flatMap monthsOf).toFinset

end

inductive Period where
  | days (first last : Date)
  | anyYear (month : ℕ) (isMonth : 1 ≤ month ∧ month ≤ 12)

def reads : Period → DayRange → Bool
  | .anyYear month _, range => month = range.1.month ∨ month = range.2.month
  | .days first last, range => range.1 ≤ last ∧ first ≤ range.2

def within (periods : List Period) (days : List DayRange) : Bool :=
  periods.any fun period => days.any fun range => reads period range

/-- The period has the day. -/
def Period.Holds (day : Date) : Period → Prop
  | .days first last => first ≤ day ∧ day ≤ last
  | .anyYear month _ => day.month = month

/-- Some day of the range lies in the period. -/
def Period.Meets (period : Period) (range : DayRange) : Prop :=
  ∃ day, range.1 ≤ day ∧ day ≤ range.2 ∧ period.Holds day

/-- Months, counted from the year 0. -/
def monthCount (year month : ℕ) : ℕ := year * 12 + month

/-- The range begins or ends in the month. -/
def Ends (month : ℕ) (range : DayRange) : Prop := month = range.1.month ∨ month = range.2.month

/-- The range begins before the month of some year and ends after it. -/
def PassesOver (month : ℕ) (range : DayRange) : Prop :=
  ∃ year, monthCount range.1.year range.1.month < monthCount year month ∧
    monthCount year month < monthCount range.2.year range.2.month

/-- The range ends before it begins. -/
def Backwards (range : DayRange) : Prop := ¬range.1 ≤ range.2
deriving Decidable

/-- Both its dates lie in the period. -/
def LiesIn (first last : Date) (range : DayRange) : Prop :=
  (first ≤ range.1 ∧ range.1 ≤ last) ∧ first ≤ range.2 ∧ range.2 ≤ last

/-- A range that passes over the month is helped by one that begins or ends in it, and one that is
backwards and begins or ends in it by one that has it and is not. -/
def MonthRight (backwards : DayRange → Prop) (month : ℕ) (days : List DayRange) : Prop :=
  (∀ range ∈ days, PassesOver month range → ∃ other ∈ days, Ends month other) ∧
    ∀ range ∈ days, backwards range → Ends month range →
      ∃ other ∈ days, ¬backwards other ∧ (Ends month other ∨ PassesOver month other)

/-- No range passes over the month alone, and no backwards one is taken to meet the period.  For a
range of days that is one which lies in it, or any that goes over a period which is backwards. -/
def ReadsRight (days : List DayRange) : Period → Prop
  | .days first last =>
    if first ≤ last then
      ∀ range ∈ days, Backwards range → LiesIn first last range →
        ∃ other ∈ days, ¬Backwards other ∧ other.1 ≤ last ∧ first ≤ other.2
    else ∀ range ∈ days, ¬(range.1 ≤ last ∧ first ≤ range.2)
  | .anyYear month _ => MonthRight Backwards month days

/-- The same where only the months of a range are looked at. -/
def DatesRight (month : ℕ) (days : List DayRange) : Prop :=
  MonthRight (fun range => span range < 0) month days

/-- From its first month to its last a range comes to the month. -/
def Reaches (month : ℕ) (range : DayRange) : Prop :=
  ((month + 12 - range.1.month) % 12 : ℕ) ≤ span range

variable {month : ℕ} {range : DayRange} {days : List DayRange}

theorem span_nonneg_of_le (ordered : range.1 ≤ range.2) : 0 ≤ span range := by
  have firstMonth := range.1.isMonth
  have lastMonth := range.2.isMonth
  rw [Date.le_iff] at ordered
  rw [span]
  omega

theorem one_le_daysInMonth (year : ℕ) (isMonth : 1 ≤ month ∧ month ≤ 12) :
    1 ≤ daysInMonth year month := by
  obtain ⟨atLeast, atMost⟩ := isMonth
  have table : 28 ≤ [31, 28, 31, 30, 31, 30, 31, 31, 30, 31, 30, 31].getD (month - 1) 0 := by
    interval_cases month <;> decide
  rw [daysInMonth]
  omega

theorem reaches_of_ends (ahead : 0 ≤ span range)
    (ends : Ends month range) : Reaches month range := by
  have firstMonth := range.1.isMonth
  have lastMonth := range.2.isMonth
  rw [Reaches]
  rw [span] at ahead ⊢
  rcases ends with isFirst | isLast
  · omega
  · omega

theorem exists_day_of_reaches (isMonth : 1 ≤ month ∧ month ≤ 12) (ordered : range.1 ≤ range.2)
    (reached : Reaches month range) :
    ∃ day, range.1 ≤ day ∧ day ≤ range.2 ∧ day.month = month := by
  have firstMonth := range.1.isMonth
  have lastMonth := range.2.isMonth
  have firstYear := range.1.isYear
  have lastYear := range.2.isYear
  have firstDay := range.1.isDay
  have lastDay := range.2.isDay
  rw [Reaches, span] at reached
  by_cases isFirst : range.1.month = month
  · refine ⟨range.1, ?_, ordered, isFirst⟩
    rw [Date.le_iff]
    omega
  · by_cases sameYear : range.1.month < month
    · have notLater : range.1.year < range.2.year ∨ month ≤ range.2.month := by omega
      refine ⟨⟨range.1.year, month, 1, firstYear, isMonth,
        ⟨le_refl 1, one_le_daysInMonth _ isMonth⟩⟩, ?_, ?_, rfl⟩
      · exact .inr ⟨rfl, .inl sameYear⟩
      · rw [Date.le_iff] at ordered ⊢
        dsimp only
        omega
    · have notLater : range.1.year + 1 < range.2.year ∨
          range.1.year + 1 = range.2.year ∧ month ≤ range.2.month := by omega
      refine ⟨⟨range.1.year + 1, month, 1, by omega, isMonth,
        ⟨le_refl 1, one_le_daysInMonth _ isMonth⟩⟩, ?_, ?_, rfl⟩
      · exact .inl (Nat.lt_succ_self _)
      · rw [Date.le_iff]
        dsimp only
        omega

theorem meets_anyYear_iff (isMonth : 1 ≤ month ∧ month ≤ 12) :
    (Period.anyYear month isMonth).Meets range ↔ range.1 ≤ range.2 ∧ Reaches month range := by
  constructor
  · rintro ⟨day, after, before, inMonth⟩
    have firstMonth := range.1.isMonth
    have lastMonth := range.2.isMonth
    have dayMonth := day.isMonth
    change day.month = month at inMonth
    rw [Date.le_iff] at after before
    rw [Date.le_iff, Reaches, span]
    omega
  · rintro ⟨ordered, reached⟩
    exact exists_day_of_reaches isMonth ordered reached

theorem meets_days_iff : (Period.days first last).Meets range ↔
    first ≤ last ∧ range.1 ≤ range.2 ∧ range.1 ≤ last ∧ first ≤ range.2 := by
  constructor
  · rintro ⟨day, after, before, afterFirst, beforeLast⟩
    exact ⟨Date.le_trans afterFirst beforeLast, Date.le_trans after before,
      Date.le_trans after beforeLast, Date.le_trans afterFirst before⟩
  · rintro ⟨ordered, rangeOrdered, started, notOver⟩
    by_cases isLater : range.1 ≤ first
    · exact ⟨first, isLater, notOver, first.le_refl, ordered⟩
    · exact ⟨range.1, range.1.le_refl, rangeOrdered, Date.le_of_not_le isLater, started⟩

theorem reads_anyYear_iff (isMonth : 1 ≤ month ∧ month ≤ 12) :
    reads (.anyYear month isMonth) range = true ↔ Ends month range := by
  rw [reads, decide_eq_true_eq, Ends]

theorem reads_days_iff :
    reads (.days first last) range = true ↔ range.1 ≤ last ∧ first ≤ range.2 := by
  rw [reads, decide_eq_true_eq]

theorem mem_monthsOf (isMonth : 1 ≤ month ∧ month ≤ 12) :
    month - 1 ∈ monthsOf range ↔ Reaches month range := by
  have firstMonth := range.1.isMonth
  rw [monthsOf, List.mem_map, Reaches]
  constructor
  · rintro ⟨k, isStep, same⟩
    rw [List.mem_range] at isStep
    omega
  · intro reached
    refine ⟨(month + 12 - range.1.month) % 12, ?_, ?_⟩
    · rw [List.mem_range]
      omega
    · omega

theorem within_singleton {period : Period} :
    within [period] days = true ↔ ∃ range ∈ days, reads period range = true := by
  rw [within, List.any_cons, List.any_nil, Bool.or_false, List.any_eq_true]

theorem reaches_iff (isMonth : 1 ≤ month ∧ month ≤ 12) :
    Reaches month range ↔ 0 ≤ span range ∧ (Ends month range ∨ PassesOver month range) := by
  have firstMonth := range.1.isMonth
  have lastMonth := range.2.isMonth
  constructor
  · intro reached
    rw [Reaches] at reached
    have ahead : 0 ≤ span range := by omega
    refine ⟨ahead, or_iff_not_imp_left.mpr fun apart => ?_⟩
    rw [Ends] at apart
    rw [span] at reached ahead
    by_cases sameYear : range.1.month < month
    · refine ⟨range.1.year, ?_⟩
      simp only [monthCount]
      omega
    · refine ⟨range.1.year + 1, ?_⟩
      simp only [monthCount]
      omega
  · rintro ⟨ahead, ends | ⟨year, isLater, isEarlier⟩⟩
    · exact reaches_of_ends ahead ends
    · simp only [monthCount] at isLater isEarlier
      rw [Reaches]
      rw [span] at ahead ⊢
      omega

theorem span_pos_of_passesOver (passes : PassesOver month range) : 1 < span range := by
  obtain ⟨year, isLater, isEarlier⟩ := passes
  simp only [monthCount] at isLater isEarlier
  rw [span]
  omega

theorem not_backwards_of_span_pos (ahead : 0 < span range) : ¬Backwards range := by
  have firstMonth := range.1.isMonth
  have lastMonth := range.2.isMonth
  rw [Backwards, not_not, Date.le_iff]
  rw [span] at ahead
  omega

/-- To look at the ends alone is right exactly for the ranges of the right shape. -/
theorem ends_agree_iff {backwards : DayRange → Prop}
    (ahead : ∀ range : DayRange, 1 < span range → ¬backwards range) :
    ((∃ range ∈ days, Ends month range) ↔
        ∃ range ∈ days, ¬backwards range ∧ (Ends month range ∨ PassesOver month range)) ↔
      MonthRight backwards month days := by
  constructor
  · intro same
    refine ⟨fun range member passes => ?_, fun range member _ ends => same.mp ⟨range, member, ends⟩⟩
    exact same.mpr ⟨range, member, ahead range (span_pos_of_passesOver passes), .inr passes⟩
  · rintro ⟨helped, madeUp⟩
    constructor
    · rintro ⟨range, member, ends⟩
      by_cases isBackwards : backwards range
      · exact madeUp range member isBackwards ends
      · exact ⟨range, member, isBackwards, .inl ends⟩
    · rintro ⟨range, member, -, ends | passes⟩
      · exact ⟨range, member, ends⟩
      · exact helped range member passes

theorem meets_anyYear_shape (isMonth : 1 ≤ month ∧ month ≤ 12) :
    (Period.anyYear month isMonth).Meets range ↔
      ¬Backwards range ∧ (Ends month range ∨ PassesOver month range) := by
  rw [meets_anyYear_iff, reaches_iff isMonth, Backwards, not_not]
  exact ⟨fun meets => ⟨meets.1, meets.2.2⟩,
    fun shape => ⟨shape.1, span_nonneg_of_le shape.1, shape.2⟩⟩

section

variable {first last : Date}

theorem days_agree_iff :
    ((∃ range ∈ days, range.1 ≤ last ∧ first ≤ range.2) ↔
        ∃ range ∈ days, first ≤ last ∧ range.1 ≤ range.2 ∧ range.1 ≤ last ∧ first ≤ range.2) ↔
      ReadsRight days (.days first last) := by
  rw [ReadsRight]
  split
  case isTrue ordered =>
    constructor
    · rintro same range member - ⟨⟨-, started⟩, notOver, -⟩
      obtain ⟨other, isOther, -, notBackwards, rest⟩ := same.mp ⟨range, member, started, notOver⟩
      exact ⟨other, isOther, not_not.mpr notBackwards, rest⟩
    · intro madeUp
      constructor
      · rintro ⟨range, member, started, notOver⟩
        by_cases isOrdered : range.1 ≤ range.2
        · exact ⟨range, member, ordered, isOrdered, started, notOver⟩
        · -- a backwards range that is taken to meet the period has both its dates in it
          have isBack := Date.le_of_not_le isOrdered
          have liesIn : LiesIn first last range :=
            ⟨⟨Date.le_trans notOver isBack, started⟩, notOver, Date.le_trans isBack started⟩
          obtain ⟨other, isOther, notBackwards, rest⟩ := madeUp range member isOrdered liesIn
          exact ⟨other, isOther, ordered, not_not.mp notBackwards, rest⟩
      · rintro ⟨range, member, -, -, compared⟩
        exact ⟨range, member, compared⟩
  case isFalse backwards =>
    constructor
    · intro same range member compared
      obtain ⟨other, -, ordered, -⟩ := same.mp ⟨range, member, compared⟩
      exact backwards ordered
    · intro apart
      constructor
      · rintro ⟨range, member, compared⟩
        exact absurd compared (apart range member)
      · rintro ⟨range, member, ordered, -⟩
        exact absurd ordered backwards

end

/-- Ranges that end in the month they begin in, or in the next, are read right. -/
theorem readsRight_of_short (short : ∀ range ∈ days, range.1 ≤ range.2 ∧ span range ≤ 1)
    (period : Period) (isPeriod : ∀ first last, period = .days first last → first ≤ last) :
    ReadsRight days period := by
  cases period with
  | days first last =>
    rw [ReadsRight, if_pos (isPeriod first last rfl)]
    exact fun range member backwards => absurd (short range member).1 backwards
  | anyYear month isMonth =>
    refine ⟨fun range member passes => ?_, fun range member backwards => ?_⟩
    · have long := span_pos_of_passesOver passes
      have isShort := (short range member).2
      omega
    · exact absurd (short range member).1 backwards

/-- A period is read to meet the ranges exactly when a day of a range lies in it, and the month of
any year that it names exactly when the memory is dated in it, for the ranges of the right shape;
short ranges have it. -/
theorem within_agrees_iff (dateOf : List Char → Option Date) :
    (∀ period days, ((within [period] days = true ↔ ∃ range ∈ days, period.Meets range) ↔
        ReadsRight days period)) ∧
      (∀ (payload : Payload) (month : ℕ) (isMonth : 1 ≤ month ∧ month ≤ 12),
        ((within [.anyYear month isMonth] (memoryDays dateOf payload) = true ↔
            month - 1 ∈ monthsDated dateOf payload) ↔
          DatesRight month (memoryDays dateOf payload))) ∧
      ∀ period days, (∀ first last, period = .days first last → first ≤ last) →
        (∀ range ∈ days, range.1 ≤ range.2 ∧ span range ≤ 1) →
          (within [period] days = true ↔ ∃ range ∈ days, period.Meets range) := by
  have agrees : ∀ period days, ((within [period] days = true ↔
      ∃ range ∈ days, period.Meets range) ↔ ReadsRight days period) := by
    intro period days
    rw [within_singleton]
    cases period with
    | days first last =>
      simp only [reads_days_iff, meets_days_iff]
      exact days_agree_iff
    | anyYear month isMonth =>
      simp only [reads_anyYear_iff, meets_anyYear_shape]
      exact ends_agree_iff fun range long => not_backwards_of_span_pos (by omega)
  refine ⟨agrees, fun payload month isMonth => ?_, fun period days isPeriod short => ?_⟩
  · have dated : month - 1 ∈ monthsDated dateOf payload ↔
        ∃ range ∈ memoryDays dateOf payload,
          ¬span range < 0 ∧ (Ends month range ∨ PassesOver month range) := by
      simp only [monthsDated, List.mem_toFinset, List.mem_flatMap, mem_monthsOf isMonth,
        reaches_iff isMonth, Int.not_lt]
    rw [within_singleton, dated]
    simp only [reads_anyYear_iff]
    exact ends_agree_iff fun range long => by omega
  · exact (agrees period days).mpr (readsRight_of_short short period isPeriod)

section Closed

private def january : Date where
  year := 2026
  month := 1
  day := 10

private def march : Date where
  year := 2026
  month := 3
  day := 20

private def february : Period := .anyYear 2 (by decide)

private def twoDays (text : List Char) : Option Date :=
  if text = "2026-01-10".toList then some january
  else if text = "2026-03-20".toList then some march
  else none

private def fromJanuary : Payload where
  datedMentions := [some ⟨some "2026-01-10..2026-03-20 (winter)"⟩]

theorem within_agrees_iff_january :
    (within [.anyYear 1 (by decide)] (memoryDays twoDays fromJanuary) = true ↔
      1 - 1 ∈ monthsDated twoDays fromJanuary) ∧
    (within [february] [(january, january)] = true ↔
      ∃ range ∈ [(january, january)], february.Meets range) := by
  have days : memoryDays twoDays fromJanuary = [(january, march)] := rfl
  obtain ⟨-, dated, short⟩ := within_agrees_iff twoDays
  refine ⟨(dated fromJanuary 1 (by decide)).mpr ?_, short february _ (by simp [february])
    (by decide)⟩
  rw [days]
  refine ⟨fun range member _ => ⟨_, List.mem_singleton_self _, .inl rfl⟩,
    fun range member backwards => ?_⟩
  rw [List.mem_singleton.mp member] at backwards
  exact absurd backwards (by decide)

/-- A range that goes over February is not read to meet it. -/
theorem february_between_not_read :
    ¬ (∀ period days, within [period] days = true ↔ ∃ range ∈ days, period.Meets range) ∧
      ¬ ∀ (payload : Payload) (month : ℕ) (isMonth : 1 ≤ month ∧ month ≤ 12),
        within [.anyYear month isMonth] (memoryDays twoDays payload) = true ↔
          month - 1 ∈ monthsDated twoDays payload := by
  constructor
  · intro agree
    have met : february.Meets (january, march) :=
      (meets_anyYear_shape (by decide)).mpr ⟨by decide, .inr ⟨2026, by decide⟩⟩
    have read := (agree february [(january, march)]).mpr ⟨_, List.mem_cons_self, met⟩
    revert read
    decide
  · intro agree
    have read := (agree fromJanuary 2 (by decide)).mpr (by decide +kernel)
    revert read
    decide +kernel

end Closed

end MemoryService.Retrieval
