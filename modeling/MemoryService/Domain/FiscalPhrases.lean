import MemoryService.Domain.MentionOrder
import MemoryService.Foundation.ReadThrough
import MemoryService.Foundation.Table

/-!
# Fiscal phrases that can be resolved

What a phrase needs is that its word has no odd letter and that the years it goes through are
known.
-/

namespace MemoryService.Domain

open Foundation Foundation.Regex List

namespace FiscalCalendar

variable {calendar : FiscalCalendar}

theorem year_ordered (calendar : FiscalCalendar) (fiscalYear : ℤ) :
    (calendar.year fiscalYear).1 ≤ (calendar.year fiscalYear).2 := by
  have weeks := calendar.year_weeks fiscalYear
  simp only [year]
  omega

theorem IsUnit.ordered {unit : String} {range : Range} (isUnit : calendar.IsUnit unit range) :
    range.1 ≤ range.2 := by
  rw [IsUnit] at isUnit
  split at isUnit
  case isTrue _ =>
    obtain ⟨fiscalYear, number, -, rfl⟩ := isUnit
    simp only [week]
    omega
  case isFalse _ =>
    split at isUnit
    case isTrue _ =>
      obtain ⟨fiscalYear, number, isPeriod, rfl⟩ := isUnit
      exact (calendar.periods_tile fiscalYear).ordered number isPeriod.1 isPeriod.2
    case isFalse _ =>
      split at isUnit
      case isTrue _ =>
        obtain ⟨fiscalYear, number, isQuarter, rfl⟩ := isUnit
        exact (calendar.quarters_tile fiscalYear).ordered number isQuarter.1 isQuarter.2
      case isFalse _ =>
        split at isUnit
        case isTrue _ =>
          obtain ⟨fiscalYear, half, isHalf, rfl⟩ := isUnit
          exact (calendar.seasons_tile fiscalYear).ordered half isHalf.1 isHalf.2
        case isFalse _ =>
          obtain ⟨fiscalYear, rfl⟩ := isUnit
          exact calendar.year_ordered fiscalYear

end FiscalCalendar

namespace Dated

variable {calendar : FiscalCalendar} {base : ℤ} {now : FiscalPosition}

/-- It answers a range where the condition holds, and raises where it does not. -/
structure Answers (found : Except DateError Resolved) (condition : Prop) : Prop where
  ok : condition → ∃ resolved, found = .ok resolved ∧ resolved.1.1 ≤ resolved.1.2
  fails : ¬condition → ∃ raised, found = .error raised

theorem stepped_answers (isNow : position calendar base = .ok now) (unit : String) (step : ℤ) :
    Answers (stepped calendar step unit now) (Reached calendar unit now step) := by
  obtain ⟨ok, fails⟩ := stepped_cases (FiscalCalendar.stands_of_position (eq_of_position isNow))
    (known_of_position isNow) unit step
  refine ⟨fun reached => ?_, fails⟩
  obtain ⟨label, isOk⟩ := ok reached
  exact ⟨_, isOk, (FiscalCalendar.isUnit_unitAt unit now step).ordered⟩

def ShortReached (calendar : FiscalCalendar) (now : FiscalPosition) (word : String) : Prop :=
  if word = "lw" ∨ word = "tw" ∨ word = "wtd" then
    Reached calendar "week" now (if word = "lw" then -1 else 0)
  else if word = "lm" ∨ word = "mtd" then
    Reached calendar "month" now (if word = "lm" then -1 else 0)
  else if word = "lq" ∨ word = "qtd" then
    Reached calendar "quarter" now (if word = "lq" then -1 else 0)
  else if word = "ly" ∨ word = "ty" then
    Reached calendar "year" now (if word = "ly" then -1 else 0)
  else if word = "ytd" then True
  else Known calendar (now.year - 1)

theorem relative_answers (isNow : position calendar base = .ok now) (isLast : Prop)
    [Decidable isLast] (unit : String) :
    Answers (relative calendar (if isLast then "last" else "this") unit now)
      (Reached calendar unit now (if isLast then -1 else 0)) := by
  split
  · exact stepped_answers isNow unit (-1)
  · exact stepped_answers isNow unit 0

theorem short_answers (isNow : position calendar base = .ok now) (word : String) :
    Answers (short calendar word now) (ShortReached calendar now word) := by
  have known := known_of_position isNow
  have stands := FiscalCalendar.stands_of_position (eq_of_position isNow)
  have today := week_ok known stands.isWeek
  rw [short, today, ShortReached]
  change Answers (if _ then _ else _) _
  split
  case isTrue _ => exact relative_answers isNow (word = "lw") "week"
  case isFalse _ =>
    split
    case isTrue _ => exact relative_answers isNow (word = "lm") "month"
    case isFalse _ =>
      split
      case isTrue _ => exact relative_answers isNow (word = "lq") "quarter"
      case isFalse _ =>
        split
        case isTrue _ => exact relative_answers isNow (word = "ly") "year"
        case isFalse _ =>
          split
          case isTrue _ =>
            refine ⟨fun _ => ?_, fun impossible => absurd trivial impossible⟩
            rw [yearStart_ok known.1]
            refine ⟨_, rfl, ?_⟩
            have isWeek := stands.isWeek
            simp only [FiscalCalendar.week]
            omega
          case isFalse _ =>
            constructor
            · intro lastKnown
              have isWeek := stands.isWeek
              have someWeeks : 1 ≤ calendar.weeksIn (now.year - 1) := by
                have weeks := calendar.year_weeks (now.year - 1)
                rw [FiscalCalendar.weeksIn]
                omega
              dsimp only
              rw [weeksIn_ok lastKnown, Except.bind, yearStart_ok lastKnown.1, Except.bind,
                week_ok lastKnown (by omega)]
              refine ⟨_, rfl, ?_⟩
              simp only [FiscalCalendar.week]
              omega
            · intro unknown
              obtain ⟨raised, isRaised⟩ := weeksIn_fails unknown
              dsimp only
              rw [isRaised]
              exact ⟨raised, rfl⟩

end Dated

namespace Phrase

/-- The letters whose folding is no letter of a word. -/
def oddLetters : List Char := ['\u0130', '\u0131']

def Plain (text : Option (List Char)) : Prop := ∀ c ∈ text.getD [], c ∉ oddLetters

section

variable (unicode : Unicode) (calendar : FiscalCalendar) (now : FiscalPosition) (g : Groups)

def numberOf (index : ℕ) : ℕ := unicode.int ((g index).getD [])

def Skipped (kind : PhraseKind) : Prop :=
  match kind with
  | .week =>
    numberOf unicode g 0 < 1 ∨
      calendar.weeksIn (fullYear unicode (g 1) now.year) < numberOf unicode g 0
  | .period => ¬(1 ≤ numberOf unicode g 0 ∧ numberOf unicode g 0 ≤ 12)
  | _ => False

/-- What resolving the phrase needs: a word without odd letters, and years that are known. -/
def Resolvable (kind : PhraseKind) : Prop :=
  match kind with
  | .relative =>
    Plain (g 0) ∧
      Dated.Reached calendar (unicode.casefolded ((g 2).getD [])) now
        ((directionSteps.lookup (unicode.casefolded ((g 0).getD []))).getD 0)
  | .short => Dated.ShortReached calendar now (unicode.casefolded ((g 0).getD []))
  | .week => numberOf unicode g 0 < 1 ∨ Dated.Known calendar (fullYear unicode (g 1) now.year)
  | .period =>
    ¬(1 ≤ numberOf unicode g 0 ∧ numberOf unicode g 0 ≤ 12) ∨
      Dated.Known calendar (fullYear unicode (g 1) now.year)
  | .quarter => Dated.Known calendar (fullYear unicode ((g 0).or (g 2)) now.year)
  | .season => Plain (g 0) ∧ Dated.Known calendar (fullYear unicode (g 1) now.year)
  | .year => Dated.Known calendar (fullYear unicode (g 0) now.year)

end

structure Settles (found : Except DateError (Option Resolved)) (resolvable skipped : Prop) :
    Prop where
  skips : resolvable → skipped → found = .ok none
  resolves : resolvable → ¬skipped →
    ∃ resolved, found = .ok (some resolved) ∧ resolved.1.1 ≤ resolved.1.2
  fails : ¬resolvable → ∃ raised, found = .error raised

theorem settles_of_answers {found : Except DateError Resolved} {condition : Prop}
    (answers : Dated.Answers found condition) :
    Settles (found.map some) condition False := by
  refine ⟨fun _ impossible => impossible.elim, fun holds _ => ?_, fun fails => ?_⟩
  · obtain ⟨resolved, isOk, ordered⟩ := answers.ok holds
    exact ⟨resolved, by rw [isOk]; rfl, ordered⟩
  · obtain ⟨raised, isRaised⟩ := answers.fails fails
    exact ⟨raised, by rw [isRaised]; rfl⟩

theorem settles_of_known {calendar : FiscalCalendar} {year : ℤ}
    {part : Except DateError Range} {range : Range} {label : String}
    (ok : Dated.Known calendar year → part = .ok range) (ordered : range.1 ≤ range.2)
    (fails : ¬Dated.Known calendar year → ∃ raised, part = .error raised) :
    Settles (part.map fun range => some (range, label)) (Dated.Known calendar year) False := by
  refine ⟨fun _ impossible => impossible.elim, fun known _ => ?_, fun unknown => ?_⟩
  · rw [ok known]
    exact ⟨_, rfl, ordered⟩
  · obtain ⟨raised, isRaised⟩ := fails unknown
    rw [isRaised]
    exact ⟨raised, rfl⟩

section

variable {unicode : Unicode} {calendar : FiscalCalendar} {base : ℤ} {now : FiscalPosition}
  {found : Match Char} {g : Groups}

theorem week_settles :
    Settles (week unicode calendar now g) (Resolvable unicode calendar now g .week)
      (Skipped unicode calendar now g .week) := by
  rw [week]
  change Settles (if (numberOf unicode g 0 : ℤ) < 1 then _ else _) (_ ∨ _) (_ ∨ _)
  split
  case isTrue noneNamed =>
    have isNone : numberOf unicode g 0 < 1 := by omega
    exact ⟨fun _ _ => rfl, fun _ notSkipped => absurd (.inl isNone) notSkipped,
      fun unresolvable => absurd (.inl isNone) unresolvable⟩
  case isFalse named =>
    have isNumber : ¬numberOf unicode g 0 < 1 := by omega
    by_cases known : Dated.Known calendar (fullYear unicode (g 1) now.year)
    · rw [Dated.weeksIn_ok known]
      change Settles (if calendar.weeksIn _ < (numberOf unicode g 0 : ℤ) then _ else _) _ _
      split
      case isTrue tooMany =>
        exact ⟨fun _ _ => rfl, fun _ notSkipped => absurd (.inr tooMany) notSkipped,
          fun unresolvable => absurd (.inr known) unresolvable⟩
      case isFalse within =>
        refine ⟨fun _ skipped => ?_, fun _ _ => ?_, fun unresolvable =>
          absurd (.inr known) unresolvable⟩
        · rcases skipped with isNone | tooMany
          · exact absurd isNone isNumber
          · exact absurd tooMany within
        · have isWeek := Dated.week_ok known (show 1 ≤ (numberOf unicode g 0 : ℤ) ∧ _ by omega)
          rw [numberOf] at isWeek
          rw [isWeek]
          refine ⟨_, rfl, ?_⟩
          simp only [FiscalCalendar.week]
          omega
    · obtain ⟨raised, isRaised⟩ := Dated.weeksIn_fails known
      rw [isRaised]
      refine ⟨fun resolvable => ?_, fun resolvable => ?_, fun _ => ⟨raised, rfl⟩⟩
      · exact absurd resolvable (not_or.mpr ⟨isNumber, known⟩)
      · exact absurd resolvable (not_or.mpr ⟨isNumber, known⟩)

theorem period_settles :
    Settles (period unicode calendar now g) (Resolvable unicode calendar now g .period)
      (Skipped unicode calendar now g .period) := by
  rw [period]
  change Settles (if 1 ≤ numberOf unicode g 0 ∧ numberOf unicode g 0 ≤ 12 then _ else _)
    (_ ∨ _) (¬_)
  split
  case isTrue isPeriod =>
    obtain ⟨skips, resolves, fails⟩ := @settles_of_known calendar _ _ _
      (periodLabel (fullYear unicode (g 1) now.year) (numberOf unicode g 0))
      (fun known => Dated.period_ok known isPeriod)
      ((calendar.periods_tile _).ordered _ isPeriod.1 isPeriod.2)
      (Dated.period_fails (numberOf unicode g 0))
    refine ⟨fun _ skipped => absurd isPeriod skipped, fun resolvable _ => ?_,
      fun unresolvable => ?_⟩
    · exact resolves (resolvable.resolve_left fun notPeriod => notPeriod isPeriod) id
    · exact fails fun known => unresolvable (.inr known)
  case isFalse notPeriod =>
    exact ⟨fun _ _ => rfl, fun _ notSkipped => absurd notPeriod notSkipped,
      fun unresolvable => absurd (.inl notPeriod) unresolvable⟩

def groupsOf (found : Match Char) : Groups := fun index => found.group (index + 1)

theorem quarter_number (isFound : (quarterPattern unicode).Found found) :
    1 ≤ numberOf unicode (groupsOf found) 1 ∧ numberOf unicode (groupsOf found) 1 ≤ 4 := by
  obtain ⟨taken, isGroup, c, rfl, accepted⟩ := isFound.setsBody
    (show (quarterPattern unicode).sets 2 = true from rfl) rfl
  have isNumber : numberOf unicode (groupsOf found) 1 = (unicode.digit c).getD 0 := by
    rw [numberOf, groupsOf, isGroup]
    simp [Unicode.int]
  rw [isNumber]
  have digits : ∀ value, 1 ≤ value → value ≤ 4 → c = Char.ofNat (48 + value) →
      1 ≤ (unicode.digit c).getD 0 ∧ (unicode.digit c).getD 0 ≤ 4 := by
    intro value atLeast atMost same
    rw [same, unicode.digitAscii value (by omega), Option.getD_some]
    exact ⟨atLeast, atMost⟩
  have isOne : c = '1' ∨ c = '2' ∨ c = '3' ∨ c = '4' := by simpa using accepted
  rcases isOne with same | same | same | same
  · exact digits 1 (by omega) (by omega) same
  · exact digits 2 (by omega) (by omega) same
  · exact digits 3 (by omega) (by omega) same
  · exact digits 4 (by omega) (by omega) same

theorem quarter_settles (isFound : (quarterPattern unicode).Found found) :
    Settles (quarter unicode calendar now (groupsOf found))
      (Resolvable unicode calendar now (groupsOf found) .quarter) False := by
  have isQuarter := quarter_number isFound
  exact settles_of_known (fun known => Dated.quarter_ok known isQuarter)
    ((calendar.quarters_tile _).ordered _ isQuarter.1 isQuarter.2)
    (Dated.quarter_fails (numberOf unicode (groupsOf found) 1))

theorem year_settles :
    Settles (year unicode calendar now g) (Resolvable unicode calendar now g .year) False :=
  settles_of_known Dated.year_ok (calendar.year_ordered _) Dated.year_fails

theorem looked_up_iff_plain {α : Type} {table : List (String × α)} {first : String}
    {rest : List String} {text : List Char}
    (areWords : ((table.map Prod.fst).all fun word => word.toList.all Char.isLower) = true)
    (within : first :: rest ⊆ table.map Prod.fst) (inLang : (oneOf first rest).Lang text) :
    (table.lookup (unicode.casefolded text)).isSome = true ↔ ∀ c ∈ text, c ∉ oddLetters := by
  refine Iff.trans ?_ (unicode.folds_casefold.mem_words_iff areWords within inLang)
  rw [lookup_isSome_iff, mem_map]
  refine exists_congr fun entry => and_congr Iff.rfl ?_
  rw [beq_iff_eq]
  exact eq_comm

theorem season_settles (isFound : (seasonPattern unicode).Found found) :
    Settles (season unicode calendar now (groupsOf found))
      (Resolvable unicode calendar now (groupsOf found) .season) False := by
  obtain ⟨word, isGroup, inLang⟩ := isFound.setsBody
    (show (seasonPattern unicode).sets 1 = true from rfl) rfl
  have isWord : (groupsOf found 0).getD [] = word := by
    rw [groupsOf, isGroup]
    rfl
  have plain_iff :=
    @looked_up_iff_plain unicode _ seasonNumbers _ _ word (by decide) (by decide) inLang
  rw [season, Resolvable, Plain, isWord, ← plain_iff]
  cases isHalf : seasonNumbers.lookup (unicode.casefolded word) with
  | none =>
    refine ⟨fun resolvable => ?_, fun resolvable => ?_, fun _ => ⟨.keyError, rfl⟩⟩
    · cases resolvable.1
    · cases resolvable.1
  | some half =>
    have halves : ∀ entry ∈ seasonNumbers, 1 ≤ entry.2 ∧ entry.2 ≤ 2 := by decide
    have isPart := halves _ (ReadThrough.mem_of_lookup_eq_some isHalf)
    obtain ⟨-, resolves, fails⟩ := @settles_of_known calendar _ _ _
      (seasonLabel (fullYear unicode (groupsOf found 1) now.year) half)
      (fun known => Dated.season_ok known isPart)
      ((calendar.seasons_tile _).ordered half isPart.1 isPart.2) (Dated.season_fails half)
    exact ⟨fun _ impossible => impossible.elim, fun resolvable => resolves resolvable.2,
      fun unresolvable => fails fun known => unresolvable ⟨rfl, known⟩⟩

theorem relative_settles (isNow : Dated.position calendar base = .ok now)
    (isFound : (relativePattern unicode).Found found) :
    Settles (resolve unicode calendar now (groupsOf found) .relative)
      (Resolvable unicode calendar now (groupsOf found) .relative) False := by
  obtain ⟨word, isGroup, inLang⟩ := isFound.setsBody
    (show (relativePattern unicode).sets 1 = true from rfl) rfl
  have isWord : (groupsOf found 0).getD [] = word := by
    rw [groupsOf, isGroup]
    rfl
  have plain_iff :=
    @looked_up_iff_plain unicode _ directionSteps _ _ word (by decide) (by decide) inLang
  rw [resolve, Resolvable, Plain, isWord, ← plain_iff, Dated.relative]
  refine settles_of_answers ?_
  cases isStep : directionSteps.lookup (unicode.casefolded word) with
  | none =>
    refine ⟨fun resolvable => ?_, fun _ => ⟨.keyError, rfl⟩⟩
    cases resolvable.1
  | some step =>
    obtain ⟨ok, fails⟩ :=
      Dated.stepped_answers isNow (unicode.casefolded ((groupsOf found 2).getD [])) step
    exact ⟨fun resolvable => ok resolvable.2,
      fun unresolvable => fails fun reached => unresolvable ⟨rfl, reached⟩⟩

theorem resolve_settles {text : List Char} {phrase : FiscalPhrase}
    (isNow : Dated.position calendar base = .ok now) (member : phrase ∈ phrases unicode text) :
    Settles (resolve unicode calendar now phrase.groups phrase.kind)
      (Resolvable unicode calendar now phrase.groups phrase.kind)
      (Skipped unicode calendar now phrase.groups phrase.kind) := by
  obtain ⟨kind, found⟩ := phrase
  obtain ⟨pattern, isPattern, isMatch⟩ := mem_phrases member
  have isFound : pattern.Found found := (mem_finditer isMatch).1
  cases kind with
  | relative =>
    obtain rfl : pattern = relativePattern unicode := by simpa [patterns] using isPattern
    exact relative_settles isNow isFound
  | short => exact settles_of_answers (Dated.short_answers isNow _)
  | week => exact week_settles
  | period => exact period_settles
  | quarter =>
    obtain rfl : pattern = quarterPattern unicode := by simpa [patterns] using isPattern
    exact quarter_settles isFound
  | season =>
    obtain rfl : pattern = seasonPattern unicode := by simpa [patterns] using isPattern
    exact season_settles isFound
  | year => exact year_settles

end

end Phrase

instance (unicode : Unicode) (calendar : FiscalCalendar) (now : FiscalPosition) (g : Groups)
    (kind : PhraseKind) : Decidable (Phrase.Skipped unicode calendar now g kind) :=
  match kind with
  | .week => inferInstanceAs (Decidable (_ ∨ _))
  | .period => inferInstanceAs (Decidable (¬_))
  | .relative => inferInstanceAs (Decidable False)
  | .short => inferInstanceAs (Decidable False)
  | .quarter => inferInstanceAs (Decidable False)
  | .season => inferInstanceAs (Decidable False)
  | .year => inferInstanceAs (Decidable False)

section

variable (unicode : Unicode) (calendar : FiscalCalendar) (now : FiscalPosition)

def lookedUp : (taken : List FiscalPhrase) → List FiscalPhrase → List FiscalPhrase
  | _, [] => []
  | taken, phrase :: rest =>
    if taken.any phrase.overlaps then lookedUp taken rest
    else if Phrase.Skipped unicode calendar now phrase.groups phrase.kind then
      phrase :: lookedUp taken rest
    else phrase :: lookedUp (taken ++ [phrase]) rest

end

/-- The occurrences are ranges whose start is not after their end. -/
def InOrder (out : List FiscalOccurrence) : Prop :=
  ∀ occurrence ∈ out, occurrence.mention.start ≤ occurrence.mention.stop

variable {unicode : Unicode} {calendar : FiscalCalendar} {base : ℤ} {now : FiscalPosition}
variable {text : List Char}

variable (unicode calendar now) in
def AllResolvable (taken found : List FiscalPhrase) : Prop :=
  ∀ phrase ∈ lookedUp unicode calendar now taken found,
    Phrase.Resolvable unicode calendar now phrase.groups phrase.kind

theorem collect_cases (isNow : Dated.position calendar base = .ok now) :
    ∀ {found : List FiscalPhrase} {out : List FiscalOccurrence}, found ⊆ phrases unicode text →
      InOrder out →
      (AllResolvable unicode calendar now (out.map FiscalOccurrence.phrase) found →
          ∃ final, collect unicode calendar now out found = .ok final ∧ InOrder final) ∧
        (¬AllResolvable unicode calendar now (out.map FiscalOccurrence.phrase) found →
          ∃ raised, collect unicode calendar now out found = .error raised)
  | [], out, _, ordered => by
    refine ⟨fun _ => ⟨out, rfl, ordered⟩, fun unresolvable => absurd ?_ unresolvable⟩
    intro phrase member
    cases member
  | phrase :: rest, out, within, ordered => by
    obtain ⟨skips, resolves, fails⟩ := Phrase.resolve_settles isNow (within List.mem_cons_self)
    have inRest : rest ⊆ phrases unicode text :=
      fun other member => within (List.mem_cons_of_mem _ member)
    have sameTaken : (out.map FiscalOccurrence.phrase).any phrase.overlaps =
        out.any fun occurrence => phrase.overlaps occurrence.phrase := List.any_map
    rw [collect, AllResolvable, lookedUp, sameTaken]
    split
    case isTrue _ => exact collect_cases isNow inRest ordered
    case isFalse _ =>
      by_cases resolvable : Phrase.Resolvable unicode calendar now phrase.groups phrase.kind
      · by_cases skipped : Phrase.Skipped unicode calendar now phrase.groups phrase.kind
        · rw [skips resolvable skipped, if_pos skipped, List.forall_mem_cons,
            and_iff_right resolvable]
          exact collect_cases isNow inRest ordered
        · obtain ⟨resolved, isResolved, inOrder⟩ := resolves resolvable skipped
          rw [isResolved, if_neg skipped, List.forall_mem_cons, and_iff_right resolvable]
          have nextOrdered : InOrder (out ++ [⟨phrase, mentionOf unicode phrase resolved⟩]) := by
            intro occurrence member
            rcases mem_concat.mp member with isOut | rfl
            · exact ordered occurrence isOut
            · exact inOrder
          have onward := collect_cases isNow inRest nextOrdered
          rw [List.map_append, List.map_singleton] at onward
          exact onward
      · obtain ⟨raised, isRaised⟩ := fails resolvable
        rw [isRaised]
        refine ⟨fun all => absurd (all phrase ?_) resolvable, fun _ => ⟨raised, rfl⟩⟩
        split <;> exact List.mem_cons_self

def Readable (unicode : Unicode) (text : List Char) (base : ℤ) (calendar : FiscalCalendar) :
    Prop :=
  Dated.Placed calendar base ∧ ∀ now ∈ calendar.position base,
    AllResolvable unicode calendar now [] (phrases unicode text)

theorem occurrences_cases (unicode : Unicode) (text : List Char) (base : ℤ)
    (calendar : FiscalCalendar) :
    (Readable unicode text base calendar →
        ∃ out, occurrences unicode text base calendar = .ok out ∧ InOrder out) ∧
      (¬Readable unicode text base calendar →
        ∃ raised, occurrences unicode text base calendar = .error raised) := by
  obtain ⟨-, now, -, isPosition, -, -, ok, fails⟩ := @Dated.position_cases calendar base
  by_cases placed : Dated.Placed calendar base
  · obtain ⟨collects, raises⟩ := @collect_cases unicode calendar base now text (ok placed) _ []
      (List.Subset.refl _) fun _ member => by cases member
    rw [occurrences, ok placed]
    constructor
    · intro readable
      exact collects (readable.2 now isPosition)
    · intro unreadable
      refine raises fun all => unreadable ⟨placed, fun other isOther => ?_⟩
      obtain rfl := Option.some.inj (isPosition.symm.trans isOther)
      exact all
  · obtain ⟨raised, isRaised⟩ := fails placed
    rw [occurrences, isRaised]
    exact ⟨fun readable => absurd readable.1 placed, fun _ => ⟨raised, rfl⟩⟩

theorem fiscal_mentions_iff (unicode : Unicode) (text : List Char) (base : ℤ)
    (calendar : FiscalCalendar) (limit : ℕ) :
    (∃ mentions, resolveFiscalMentions unicode text base calendar limit = .ok mentions ∧
        ∀ mention ∈ mentions, mention.start ≤ mention.stop) ↔
      Readable unicode text base calendar := by
  obtain ⟨ok, fails⟩ := occurrences_cases unicode text base calendar
  rw [resolveFiscalMentions]
  constructor
  · rintro ⟨mentions, isMentions, -⟩
    by_contra unreadable
    obtain ⟨raised, isRaised⟩ := fails unreadable
    rw [isRaised] at isMentions
    cases isMentions
  · intro readable
    obtain ⟨out, isOut, ordered⟩ := ok readable
    rw [isOut]
    refine ⟨_, rfl, fun mention member => ?_⟩
    obtain ⟨occurrence, isTaken, rfl⟩ := List.mem_map.mp member
    exact ordered occurrence ((List.mem_insertionSort _).mp (List.mem_of_mem_take isTaken))

end MemoryService.Domain
