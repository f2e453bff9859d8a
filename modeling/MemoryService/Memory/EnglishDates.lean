import MemoryService.Domain.FiscalPhrases
import MemoryService.Domain.Instant
import MemoryService.Foundation.Fallible

/-!
# English phrases for days

One pattern has a rule for each of its alternatives: a weekday, a weekend, a part of today, a
period and a vague count.  Case is ignored by the pattern, and the words are lowered before they
are looked up.
-/

namespace MemoryService.Memory.Temporal

open Foundation Foundation.Regex Foundation.Gregorian Domain

def weekdays : List String :=
  ["monday", "tuesday", "wednesday", "thursday", "friday", "saturday", "sunday"]

namespace Group

abbrev wdDir : ℕ := 1

abbrev wd : ℕ := 2

abbrev weDir : ℕ := 3

abbrev today : ℕ := 4

abbrev pDir : ℕ := 5

abbrev period : ℕ := 6

abbrev vague : ℕ := 7

abbrev unit : ℕ := 8

end Group

section

variable (unicode : Unicode)

def weekdayPattern : Regex Char :=
  all [.group Group.wdDir (oneOf "last" ["next"]), spaces unicode,
    .group Group.wd
      (oneOf "monday" ["tuesday", "wednesday", "thursday", "friday", "saturday", "sunday"])]

def weekendPattern : Regex Char :=
  all [.group Group.weDir (oneOf "last" ["this"]), spaces unicode, literal "weekend"]

def todayPattern : Regex Char :=
  .group Group.today (any
    (all [literal "this", spaces unicode, oneOf "morning" ["afternoon", "evening"]])
    [literal "tonight", all [literal "earlier", spaces unicode, literal "today"]])

def periodPattern : Regex Char :=
  all [.group Group.pDir (oneOf "last" ["next"]), spaces unicode,
    .group Group.period (oneOf "week" ["month", "year"])]

/-- `couple(?:\s+of)?` -/
def couplePattern : Regex Char :=
  .seq (literal "couple") (opt (.seq (spaces unicode) (literal "of")))

def vaguePattern : Regex Char :=
  all [opt (all [literal "a", spaces unicode]),
    .group Group.vague (any (literal "few") [couplePattern unicode, literal "several"]),
    spaces unicode,
    .group Group.unit (oneOf "days" ["weeks", "months"]), spaces unicode, literal "ago"]

def englishPattern : Regex Char :=
  all [boundary unicode,
    any (weekdayPattern unicode) [weekendPattern unicode, todayPattern unicode,
      periodPattern unicode, vaguePattern unicode],
    boundary unicode]

end

/-- What looking for the rule of a match and applying it raise. -/
inductive EnglishError where
  | date (raised : DateError)
  | indexError
  | stopIteration
  deriving DecidableEq

def vagueDays : List ((String × String) × (ℤ × ℤ)) :=
  [(("few", "days"), (6, 2)), (("couple", "days"), (3, 2)), (("few", "weeks"), (35, 14)),
   (("couple", "weeks"), (21, 10)), (("few", "months"), (150, 45)),
   (("couple", "months"), (90, 45))]

namespace Rule

/-- `steps or 7` -/
def orSeven (steps : ℤ) : ℤ := if steps = 0 then 7 else steps

section

variable (unicode : Unicode) (m : Match Char) (day : ℤ)

def lowered (number : ℕ) : List Char := unicode.lower ((m.group number).getD [])

def weekday : Except DateError Range :=
  match weekdays.idxOf? (String.ofList (lowered unicode m Group.wd)) with
  | none => .error .valueError
  | some wanted =>
    let steps :=
      if lowered unicode m Group.wdDir = "last".toList then
        -orSeven ((Gregorian.weekday day - wanted) % 7)
      else orSeven ((wanted - Gregorian.weekday day) % 7)
    (Dated.shifted day steps).map fun at_ => (at_, at_)

def weekend : Except DateError Range :=
  let steps :=
    if lowered unicode m Group.weDir = "this".toList then
      if Gregorian.weekday day < 5 then 5 - Gregorian.weekday day
      else -(Gregorian.weekday day - 5)
    else if 5 ≤ Gregorian.weekday day then -(Gregorian.weekday day - 5 + 7)
    else -(Gregorian.weekday day + 2)
  (Dated.shifted day steps).bind fun saturday =>
    (Dated.shifted saturday 1).map fun sunday => (saturday, sunday)

def period : Except DateError Range :=
  let step : ℤ := if lowered unicode m Group.pDir = "last".toList then -1 else 1
  let named := lowered unicode m Group.period
  if named = "week".toList then
    (Dated.shifted day (-Gregorian.weekday day)).bind fun start =>
      (Dated.shifted start (7 * step)).bind fun monday =>
        (Dated.shifted monday 6).map fun sunday => (monday, sunday)
  else if named = "month".toList then
    let index : ℤ := monthOf day - 1 + step
    let year := yearOfDay day + index / 12
    let month := (index % 12).toNat + 1
    (Dated.newDate year month 1).bind fun first =>
      (Dated.newDate year month (monthrange year month)).map fun last => (first, last)
  else
    (Dated.newDate (yearOfDay day + step) 1 1).bind fun first =>
      (Dated.newDate (yearOfDay day + step) 12 31).map fun last => (first, last)

/-- `text.split()[0]` -/
def firstWord (text : List Char) : Option (List Char) :=
  let word := (text.dropWhile unicode.isSpace).takeWhile fun c => !unicode.isSpace c
  if word = [] then none else some word

def countedWord (counted : List Char) : Option (List Char) :=
  if counted = "several".toList then some "few".toList else firstWord unicode counted

def reaching (reach : ℤ × ℤ) : Except DateError Range :=
  (Dated.shifted day (-reach.1)).bind fun first =>
    (Dated.shifted day (-reach.2)).map fun last => (first, last)

def vague : Except EnglishError Range :=
  match countedWord unicode (lowered unicode m Group.vague) with
  | none => .error .indexError
  | some word =>
    match vagueDays.lookup (String.ofList word, String.ofList (lowered unicode m Group.unit)) with
    | none => .error (.date .keyError)
    | some reach => (reaching day reach).mapError .date

end

end Rule

section

variable (unicode : Unicode)

def englishRules : List (ℕ × (Match Char → ℤ → Except EnglishError Range)) :=
  [(Group.wd, fun m day => (Rule.weekday unicode m day).mapError .date),
   (Group.weDir, fun m day => (Rule.weekend unicode m day).mapError .date),
   (Group.today, fun _ day => .ok (day, day)),
   (Group.period, fun m day => (Rule.period unicode m day).mapError .date),
   (Group.vague, Rule.vague unicode)]

def daysOf (day : ℤ) (m : Match Char) : Except EnglishError Range :=
  match (englishRules unicode).find? fun rule => (m.group rule.1).getD [] ≠ [] with
  | none => .error .stopIteration
  | some rule => rule.2 m day

/-- `date.isoformat` -/
def isoformat (day : ℤ) : String :=
  String.ofList (Instant.padded 4 (yearOfDay day).toNat ++ '-' :: (Instant.padded 2 (monthOf day) ++
    '-' :: Instant.padded 2 (dayOf day).toNat))

def span (days : Range) : String :=
  if days.1 = days.2 then isoformat days.1 else isoformat days.1 ++ ".." ++ isoformat days.2

structure DatedMention where
  text : String
  date : String
  deriving DecidableEq

def dated (text : List Char) (day : ℤ) : Except EnglishError (List (Match Char × Range)) :=
  ((englishPattern unicode).finditer text).mapM fun m =>
    (daysOf unicode day m).map fun days => (m, days)

def mentionOf (found : Match Char × Range) : DatedMention where
  text := String.ofList found.1.text
  date := span found.2

def english (text : List Char) (day : ℤ) : Except EnglishError (List DatedMention) :=
  (dated unicode text day).map (List.map mentionOf)

end

example : (english latin "this weekend, last Friday".toList (Gregorian.date 2026 7 5)).toOption =
    some [⟨"this weekend", "2026-07-04..2026-07-05"⟩, ⟨"last Friday", "2026-07-03"⟩] := by
  decide +kernel

end MemoryService.Memory.Temporal
