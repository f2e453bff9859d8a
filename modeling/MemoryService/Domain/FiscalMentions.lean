import MemoryService.Domain.FiscalRelative
import MemoryService.Foundation.IgnoredCase
import Mathlib.Data.List.Sort

/-!
# Fiscal phrases in a text

Seven patterns are tried one after another. A phrase that overlaps one resolved before is passed
over; any other is looked up and resolved against the day of the text.
-/

namespace MemoryService.Domain

open Foundation Foundation.Regex

inductive PhraseKind where
  | relative
  | short
  | week
  | period
  | quarter
  | season
  | year

section

variable (unicode : Unicode)

/-- `\d{2}|\d{4}` -/
def yearDigits : Regex Char := .alt (times 2 (digit unicode)) (times 4 (digit unicode))

/-- `_YEAR`, with the number of its group -/
def yearWord (number : ℕ) : Regex Char :=
  all [opt (all [literal "fy", opt (space unicode)]), opt (exactly apostrophe),
    .group number (yearDigits unicode)]

def numberPattern : Regex Char := .seq (digit unicode) (opt (digit unicode))

def numbered (unit : Regex Char) : Regex Char :=
  all [boundary unicode, opt (all [literal "fiscal", spaces unicode]), unit, opt (space unicode),
    .group 1 (numberPattern unicode),
    opt (all [spaces unicode, opt (all [literal "of", spaces unicode]), yearWord unicode 2]),
    boundary unicode]

def directionWord : Regex Char := oneOf "last" ["this", "next", "previous", "prior", "current"]

def unitWord : Regex Char := oneOf "week" ["month", "period", "quarter", "season", "year"]

def shortWord : Regex Char :=
  oneOf "lw" ["tw", "lm", "lq", "ly", "ty", "lytd", "ytd", "qtd", "mtd", "wtd"]

def seasonWord : Regex Char := oneOf "spring" ["fall", "autumn", "ss", "sp", "fw", "aw", "fa"]

def relativePattern : Regex Char :=
  all [boundary unicode, .group 1 directionWord, spaces unicode,
    opt (.group 2 (all [literal "fiscal", spaces unicode])), .group 3 unitWord, boundary unicode]

def shortPattern : Regex Char := all [boundary unicode, .group 1 shortWord, boundary unicode]

def quarterPattern : Regex Char :=
  all [boundary unicode, opt (all [yearWord unicode 1, spaces unicode]), literal "q",
    .group 2 (one ['1', '2', '3', '4'].contains), opt (all [spaces unicode, yearWord unicode 3]),
    boundary unicode]

def seasonPattern : Regex Char :=
  all [boundary unicode, .group 1 seasonWord, opt (space unicode), opt (exactly apostrophe),
    .group 2 (yearDigits unicode), boundary unicode]

def yearPattern : Regex Char :=
  all [boundary unicode,
    .alt (literal "fy") (all [literal "fiscal", spaces unicode,
      opt (all [literal "year", spaces unicode])]),
    opt (exactly apostrophe), .group 1 (yearDigits unicode), boundary unicode]

def patterns : List (Regex Char × PhraseKind) :=
  [(relativePattern unicode, .relative), (shortPattern unicode, .short),
   (numbered unicode (oneOf "week" ["wk", "w"]), .week),
   (numbered unicode (oneOf "period" ["p"]), .period), (quarterPattern unicode, .quarter),
   (seasonPattern unicode, .season), (yearPattern unicode, .year)]

end

def seasonNumbers : List (String × ℕ) :=
  [("spring", 1), ("sp", 1), ("ss", 1), ("fall", 2), ("fa", 2), ("fw", 2), ("aw", 2),
   ("autumn", 2)]

abbrev Groups := ℕ → Option (List Char)

namespace Phrase

variable (unicode : Unicode)

def fullYear (raw : Option (List Char)) (current : ℤ) : ℤ :=
  match raw with
  | none => current
  | some raw =>
    let value : ℤ := unicode.int raw
    if 1000 ≤ value then value else 2000 + value

variable (calendar : FiscalCalendar) (now : FiscalPosition) (g : Groups)

def week : Except DateError (Option Resolved) :=
  let number : ℤ := unicode.int ((g 0).getD [])
  let year := fullYear unicode (g 1) now.year
  if number < 1 then .ok none
  else
    (Dated.weeksIn calendar year).bind fun inYear =>
      if inYear < number then .ok none
      else
        (Dated.week calendar year number).map fun range => some (range, weekLabel year number)

def period : Except DateError (Option Resolved) :=
  let number := unicode.int ((g 0).getD [])
  let year := fullYear unicode (g 1) now.year
  if 1 ≤ number ∧ number ≤ 12 then
    (Dated.period calendar year number).map fun range => some (range, periodLabel year number)
  else .ok none

def quarter : Except DateError (Option Resolved) :=
  let number := unicode.int ((g 1).getD [])
  let year := fullYear unicode ((g 0).or (g 2)) now.year
  (Dated.quarter calendar year number).map fun range => some (range, quarterLabel year number)

def season : Except DateError (Option Resolved) :=
  match seasonNumbers.lookup (unicode.casefolded ((g 0).getD [])) with
  | none => .error .keyError
  | some half =>
    let year := fullYear unicode (g 1) now.year
    (Dated.season calendar year half).map fun range => some (range, seasonLabel year half)

def year : Except DateError (Option Resolved) :=
  let year := fullYear unicode (g 0) now.year
  (Dated.year calendar year).map fun range => some (range, yearLabel year)

def resolve (kind : PhraseKind) : Except DateError (Option Resolved) :=
  match kind with
  | .relative =>
    (Dated.relative calendar (unicode.casefolded ((g 0).getD []))
      (unicode.casefolded ((g 2).getD [])) now).map some
  | .short => (Dated.short calendar (unicode.casefolded ((g 0).getD [])) now).map some
  | .week => week unicode calendar now g
  | .period => period unicode calendar now g
  | .quarter => quarter unicode calendar now g
  | .season => season unicode calendar now g
  | .year => year unicode calendar now g

end Phrase

structure FiscalMention where
  text : String
  start : ℤ
  stop : ℤ
  label : String
  deriving DecidableEq

structure FiscalPhrase where
  kind : PhraseKind
  found : Match Char

namespace FiscalPhrase

def overlaps (phrase other : FiscalPhrase) : Bool :=
  phrase.found.start < other.found.stop && other.found.start < phrase.found.stop

def groups (phrase : FiscalPhrase) : Groups := fun index => phrase.found.group (index + 1)

end FiscalPhrase

structure FiscalOccurrence where
  phrase : FiscalPhrase
  mention : FiscalMention

section

variable (unicode : Unicode) (text : List Char)

def phrases : List FiscalPhrase :=
  (patterns unicode).flatMap fun pattern =>
    (pattern.1.finditer text).map fun found => { kind := pattern.2, found }

def mentionOf (phrase : FiscalPhrase) (resolved : Resolved) : FiscalMention where
  text := String.ofList (unicode.strip phrase.found.text)
  start := resolved.1.1
  stop := resolved.1.2
  label := resolved.2

def collect (calendar : FiscalCalendar) (now : FiscalPosition) :
    List FiscalOccurrence → List FiscalPhrase → Except DateError (List FiscalOccurrence)
  | out, [] => .ok out
  | out, phrase :: rest =>
    if out.any fun occurrence => phrase.overlaps occurrence.phrase then
      collect calendar now out rest
    else
      (Phrase.resolve unicode calendar now phrase.groups phrase.kind).bind fun resolved =>
        match resolved with
        | none => collect calendar now out rest
        | some resolved =>
          collect calendar now (out ++ [⟨phrase, mentionOf unicode phrase resolved⟩]) rest

/-- `str.find`, from an index on. -/
def findFrom (part : List Char) : (index : ℤ) → List Char → ℤ
  | index, [] => if part = [] then index else -1
  | index, c :: rest =>
    if part.isPrefixOf (c :: rest) then index else findFrom part (index + 1) rest

def find (text part : List Char) : ℤ := findFrom part 0 text

def FiscalOccurrence.key (occurrence : FiscalOccurrence) : ℤ :=
  find text occurrence.mention.text.toList

def sortedByKey (out : List FiscalOccurrence) : List FiscalOccurrence :=
  out.insertionSort fun first second => first.key text ≤ second.key text

def occurrences (base : ℤ) (calendar : FiscalCalendar) :
    Except DateError (List FiscalOccurrence) :=
  (Dated.position calendar base).bind fun now =>
    collect unicode calendar now [] (phrases unicode text)

def resolveFiscalMentions (base : ℤ) (calendar : FiscalCalendar)
    (limit : ℕ) : Except DateError (List FiscalMention) :=
  (occurrences unicode text base calendar).map fun out =>
    ((sortedByKey text out).take limit).map FiscalOccurrence.mention

end

end MemoryService.Domain
