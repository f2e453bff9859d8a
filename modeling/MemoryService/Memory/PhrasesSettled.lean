import MemoryService.Memory.EnglishDates

/-!
# Texts whose time phrases are resolved

An English phrase is resolved where its weekday, its count and its unit have no odd letter: a
long s is a letter of the pattern and no letter of the tables.
-/

namespace MemoryService.Memory.Temporal

open Foundation Foundation.Regex Foundation.Gregorian Domain List

/-- It answers days in order where the condition holds, and raises where it does not. -/
structure Answered {Error : Type} (found : Except Error Range) (condition : Prop) : Prop where
  ok : condition → ∃ days, found = .ok days ∧ days.1 ≤ days.2
  fails : ¬condition → ∃ raised, found = .error raised

variable {Error : Type} {condition : Prop} {number : ℕ}

theorem Answered.mapError {Other : Type} {found : Except Error Range}
    (answered : Answered found condition) (change : Error → Other) :
    Answered (found.mapError change) condition := by
  constructor
  · intro holds
    obtain ⟨days, isOk, ordered⟩ := answered.ok holds
    exact ⟨days, by rw [isOk]; rfl, ordered⟩
  · intro fails
    obtain ⟨raised, isRaised⟩ := answered.fails fails
    exact ⟨change raised, by rw [isRaised]; rfl⟩

theorem answered_ok {days : Range} (ordered : days.1 ≤ days.2)
    (holds : condition) : Answered (.ok days : Except Error Range) condition :=
  ⟨fun _ => ⟨days, rfl, ordered⟩, fun fails => absurd holds fails⟩

def Inside (day : ℤ) : Prop := 2 ≤ yearOfDay day ∧ yearOfDay day ≤ 9998
deriving Decidable

theorem Inside.day {day : ℤ} (inside : Inside day) : 366 ≤ day ∧ day + 365 ≤ maxDay := by
  have spec := yearOfDay_spec day
  simp only [daysBeforeYear] at spec
  rw [Inside] at inside
  rw [maxDay]
  omega

theorem weekday_range (day : ℤ) : 0 ≤ Gregorian.weekday day ∧ Gregorian.weekday day ≤ 6 := by
  rw [Gregorian.weekday]
  omega

def Spelled (text : Option (List Char)) : Prop := ∀ c ∈ text.getD [], c ∉ oddLowers

instance (text : Option (List Char)) : Decidable (Spelled text) :=
  haveI := List.decidableBAll (fun c => c ∉ oddLowers) (text.getD [])
  inferInstanceAs (Decidable (∀ c ∈ text.getD [], c ∉ oddLowers))

section

variable {unicode : Unicode} {m : Match Char} {day : ℤ} {text : List Char}

theorem lowered_some (isGroup : m.group number = some text) :
    Rule.lowered unicode m number = unicode.lower text := by
  rw [Rule.lowered, isGroup, Option.getD_some]

theorem spelled_some : Spelled (some text) ↔ ∀ c ∈ text, c ∉ oddLowers := Iff.rfl

theorem spelled_none : Spelled none := by
  intro c isIn
  cases isIn

theorem orSeven_range {steps : ℤ} (inWeek : 0 ≤ steps ∧ steps ≤ 6) :
    1 ≤ Rule.orSeven steps ∧ Rule.orSeven steps ≤ 7 := by
  rw [Rule.orSeven]
  split <;> omega

theorem weekday_answered (inside : Inside day) (isGroup : m.group Group.wd = some text)
    (inLang : (oneOf "monday"
      ["tuesday", "wednesday", "thursday", "friday", "saturday", "sunday"]).Lang text) :
    Answered (Rule.weekday unicode m day) (Spelled (m.group Group.wd)) := by
  have known := unicode.lower_mem_iff
    (show (weekdays.all fun word => word.toList.all Char.isLower) =
    true by decide) (List.Subset.refl _) inLang
  have bounds := inside.day
  rw [isGroup, spelled_some, ← known, Rule.weekday, lowered_some isGroup]
  cases isPlace : weekdays.idxOf? (String.ofList (unicode.lower text)) with
  | none =>
    have notThere := idxOf?_eq_none_iff.mp isPlace
    exact ⟨fun there => absurd there notThere, fun _ => ⟨.valueError, rfl⟩⟩
  | some wanted =>
    have there : String.ofList (unicode.lower text) ∈ weekdays := by
      by_contra notThere
      rw [idxOf?_eq_none_iff.mpr notThere] at isPlace
      cases isPlace
    have back := orSeven_range (show 0 ≤ (Gregorian.weekday day - wanted) % 7 ∧ _ by omega)
    have ahead := orSeven_range (show 0 ≤ ((wanted : ℤ) - Gregorian.weekday day) % 7 ∧ _ by omega)
    dsimp only
    rw [Dated.shifted_ok (by split <;> omega)]
    exact answered_ok (le_refl _) there

theorem weekend_answered (inside : Inside day) : Answered (Rule.weekend unicode m day) True := by
  have bounds := inside.day
  have inWeek := weekday_range day
  rw [Rule.weekend, Dated.shifted_ok (by split <;> split <;> omega), Except.bind,
    Dated.shifted_ok (by split <;> split <;> omega)]
  refine answered_ok ?_ trivial
  dsimp only
  omega

theorem reaching_answered (inside : Inside day) {reach : ℤ × ℤ}
    (isReach : 0 ≤ reach.2 ∧ reach.2 ≤ reach.1 ∧ reach.1 ≤ 365) :
    Answered (Rule.reaching day reach) True := by
  have bounds := inside.day
  rw [Rule.reaching, Dated.shifted_ok (by omega), Except.bind, Dated.shifted_ok (by omega)]
  refine answered_ok ?_ trivial
  dsimp only
  omega

theorem newDate_ok {year : ℤ} (isYear : 1 ≤ year ∧ year ≤ 9999) (month : ℕ) (day : ℤ) :
    Dated.newDate year month day = .ok (Gregorian.date year month day) := if_pos isYear

theorem period_answered (inside : Inside day) : Answered (Rule.period unicode m day) True := by
  have bounds := inside.day
  have inWeek := weekday_range day
  rw [Inside] at inside
  rw [Rule.period]
  generalize isStep : (if Rule.lowered unicode m Group.pDir = "last".toList then (-1 : ℤ) else 1) =
    step
  have oneStep : step = -1 ∨ step = 1 := by
    rw [← isStep]
    split
    · exact .inl rfl
    · exact .inr rfl
  dsimp only
  split
  case isTrue _ =>
    rw [Dated.shifted_ok (by omega), Except.bind, Dated.shifted_ok (by omega), Except.bind,
      Dated.shifted_ok (by omega)]
    refine answered_ok ?_ trivial
    dsimp only
    omega
  case isFalse _ =>
    split
    case isTrue _ =>
      have isMonth := monthOf_le day
      generalize isIndex : (monthOf day : ℤ) - 1 + step = index
      have isYear : 1 ≤ yearOfDay day + index / 12 ∧ yearOfDay day + index / 12 ≤ 9999 := by omega
      have someDays := monthrange_pos (yearOfDay day + index / 12)
        (show 1 ≤ (index % 12).toNat + 1 ∧ (index % 12).toNat + 1 ≤ 12 by omega)
      rw [newDate_ok isYear, Except.bind, newDate_ok isYear]
      refine answered_ok ?_ trivial
      simp only [Gregorian.date]
      omega
    case isFalse _ =>
      have isYear : 1 ≤ yearOfDay day + step ∧ yearOfDay day + step ≤ 9999 := by omega
      have extra := leapDay_cases (yearOfDay day + step)
      rw [newDate_ok isYear, Except.bind, newDate_ok isYear]
      refine answered_ok ?_ trivial
      simp only [Gregorian.date, daysBeforeMonth, daysBeforeMonths]
      simp
      omega

theorem firstWord_append {word rest : List Char} (someLetter : word ≠ [])
    (letters : ∀ c ∈ word, unicode.isSpace c = false)
    (apart : ∀ c ∈ rest.head?, unicode.isSpace c = true) :
    Rule.firstWord unicode (word ++ rest) = some word := by
  obtain ⟨c, more, rfl⟩ := exists_cons_of_ne_nil someLetter
  have isLetter := letters c mem_cons_self
  have takesWord : (c :: more ++ rest).takeWhile (fun c => !unicode.isSpace c) = c :: more := by
    rw [takeWhile_append_of_pos fun other isIn => by rw [letters other isIn]; rfl]
    cases rest with
    | nil => exact append_nil _
    | cons next _ => rw [takeWhile_cons, apart next rfl]; exact append_nil _
  rw [Rule.firstWord, cons_append, dropWhile_cons, isLetter, if_neg Bool.false_ne_true,
    ← cons_append, takesWord, if_neg someLetter]

theorem letters_not_space {word : List Char} (isWord : word.all Char.isLower = true) :
    ∀ c ∈ word, unicode.isSpace c = false :=
  fun c isIn => unicode.spellingNotSpace (all_eq_true.mp isWord c isIn) mem_cons_self

theorem lowers_to_word {word : String} (isText : (literal word).Lang text)
    (areOthers : (word.toList.all fun letter => letter.isLower && letter != 's' && letter != 'i') =
      true) :
    (∀ c ∈ text, c ∉ oddLowers) ∧ text.flatMap unicode.lowerOf = word.toList := by
  have notOdd := not_odd_of_spelled (lang_literal.mp isText) areOthers
  refine ⟨notOdd, unicode.folds_lower.of_spelled (lang_literal.mp isText) ?_ notOdd⟩
  intro letter isIn
  have isOther := all_eq_true.mp areOthers letter isIn
  exact (Bool.and_eq_true_iff.mp (Bool.and_eq_true_iff.mp isOther).1).1

theorem lang_spaces (inLang : (spaces unicode).Lang text) :
    text ≠ [] ∧ ∀ c ∈ text, unicode.isSpace c = true := by
  obtain ⟨front, back, rfl, ⟨first, rfl, isSpace⟩, parts, rfl, areSpaces⟩ := inLang
  refine ⟨cons_ne_nil _ _, forall_mem_cons.mpr ⟨isSpace, fun c isIn => ?_⟩⟩
  obtain ⟨part, isPart, isInPart⟩ := mem_flatten.mp isIn
  obtain ⟨blank, rfl, isBlank⟩ := areSpaces part isPart
  rw [mem_singleton.mp isInPart]
  exact isBlank

section

variable (areSpaces : ∀ c ∈ text, unicode.isSpace c = true)
include areSpaces

theorem spaces_not_odd :
    ∀ c ∈ text, c ∉ oddLowers := by
  intro c isIn isOdd
  have spellings : (oddLowers.all fun c => c ∈ spellingsOf 'i' || c ∈ spellingsOf 's') = true := by
    decide
  have notSpace : unicode.isSpace c = false := by
    rcases Bool.or_eq_true_iff.mp (all_eq_true.mp spellings c isOdd) with isI | isS
    · exact unicode.spellingNotSpace (by decide) (of_decide_eq_true isI)
    · exact unicode.spellingNotSpace (by decide) (of_decide_eq_true isS)
  rw [areSpaces c isIn] at notSpace
  cases notSpace

theorem spaces_lower :
    text.flatMap unicode.lowerOf = text := by
  rw [flatMap_congr fun c isIn => unicode.spaceLower (areSpaces c isIn)]
  exact flatMap_singleton' text

theorem sigma_not_space : '\u03a3' ∉ text := by
  intro isIn
  have isSpace := areSpaces _ isIn
  rw [unicode.spaceNotSigma] at isSpace
  cases isSpace

end

theorem sigma_not_in_literal {word : String} (isText : (literal word).Lang text)
    (isWord : word.toList.all Char.isLower = true) : '\u03a3' ∉ text :=
  sigma_not_in_spelled (lang_literal.mp isText) (all_eq_true.mp isWord)

theorem couple_lowered (inLang : (couplePattern unicode).Lang text) :
    (∀ c ∈ text, c ∉ oddLowers) ∧ ∃ rest, unicode.lower text = "couple".toList ++ rest ∧
      ∀ c ∈ rest.head?, unicode.isSpace c = true := by
  obtain ⟨front, back, rfl, isCouple, isOf⟩ := inLang
  obtain ⟨coupleEven, coupleLowered⟩ := @lowers_to_word unicode _ _ isCouple (by decide)
  have noSigma := sigma_not_in_literal isCouple (by decide)
  rcases isOf with ⟨blanks, more, rfl, areBlanks, isMore⟩ | isEmpty
  · obtain ⟨someBlank, areSpaces⟩ := lang_spaces areBlanks
    obtain ⟨ofEven, ofLowered⟩ := @lowers_to_word unicode _ _ isMore (by decide)
    constructor
    · intro c isIn
      rcases mem_append.mp isIn with isFront | isBack
      · exact coupleEven c isFront
      · rcases mem_append.mp isBack with isBlank | isLast
        · exact spaces_not_odd areSpaces c isBlank
        · exact ofEven c isLast
    · refine ⟨blanks ++ "of".toList, ?_, ?_⟩
      · rw [unicode.lowerEq, flatMap_append, flatMap_append, coupleLowered, ofLowered,
          spaces_lower areSpaces]
        rw [mem_append, mem_append]
        rintro (isIn | isIn | isIn)
        · exact noSigma isIn
        · exact sigma_not_space areSpaces isIn
        · exact sigma_not_in_literal isMore (by decide) isIn
      · obtain ⟨first, others, rfl⟩ := exists_cons_of_ne_nil someBlank
        intro c isFirst
        rw [← Option.some.inj isFirst]
        exact areSpaces first mem_cons_self
  · rw [show back = [] from isEmpty, append_nil]
    refine ⟨coupleEven, [], ?_, fun c isFirst => by cases isFirst⟩
    rw [unicode.lowerEq noSigma, coupleLowered, append_nil]

def longSeveral : List Char := "\u017feveral".toList

theorem countedWord_cases
    (inLang : (any (literal "few") [couplePattern unicode, literal "several"]).Lang text) :
    ((∀ c ∈ text, c ∉ oddLowers) ∧ ∃ word, (word = "few" ∨ word = "couple") ∧
        Rule.countedWord unicode (unicode.lower text) = some word.toList) ∨
      (¬∀ c ∈ text, c ∉ oddLowers) ∧
        Rule.countedWord unicode (unicode.lower text) = some longSeveral := by
  rcases inLang with isFew | isCouple | isSeveral
  · obtain ⟨notOdd, isLowered⟩ := @lowers_to_word unicode _ _ isFew (by decide)
    refine .inl ⟨notOdd, "few", .inl rfl, ?_⟩
    have isWord := @firstWord_append unicode "few".toList [] (by decide)
      (letters_not_space (by decide)) (fun _ isFirst => by cases isFirst)
    rw [append_nil] at isWord
    rw [unicode.lowerEq (sigma_not_in_literal isFew (by decide)), isLowered, Rule.countedWord,
      if_neg (by decide), isWord]
  · obtain ⟨notOdd, rest, isLowered, apart⟩ := couple_lowered isCouple
    refine .inl ⟨notOdd, "couple", .inr rfl, ?_⟩
    have notSeveral : "couple".toList ++ rest ≠ "several".toList := by
      intro same
      cases same
    rw [isLowered, Rule.countedWord, if_neg notSeveral,
      firstWord_append (by decide) (letters_not_space (by decide)) apart]
  · have spelled : List.Forall₂ (fun c letter => c ∈ spellingsOf letter) text
        ('s' :: "everal".toList) := lang_literal.mp isSeveral
    obtain ⟨c, more, isS, isRest, rfl⟩ := List.forall₂_cons_right_iff.mp spelled
    obtain ⟨moreEven, moreLowered⟩ :=
      @lowers_to_word unicode _ "everal" (lang_literal.mpr isRest) (by decide)
    have noSigma := sigma_not_in_literal isSeveral (by decide)
    rw [unicode.lowerEq noSigma, flatMap_cons, moreLowered, forall_mem_cons, and_iff_left moreEven]
    by_cases isOdd : c ∈ oddLowers
    · have spellings : ((spellingsOf 's').all fun c => c ∉ oddLowers || c = '\u017f') = true := by
        decide
      have isLong : c = '\u017f' := by
        rcases Bool.or_eq_true_iff.mp (all_eq_true.mp spellings c isS) with even | isLong
        · exact absurd isOdd (of_decide_eq_true even)
        · exact of_decide_eq_true isLong
      subst isLong
      refine .inr ⟨not_not_intro isOdd, ?_⟩
      rw [unicode.lowerLongS, Rule.countedWord, if_neg (by decide)]
      have isWord := @firstWord_append unicode longSeveral [] (by decide)
        (forall_mem_cons.mpr ⟨unicode.spellingNotSpace (by decide) isS,
          letters_not_space (by decide)⟩) (fun _ isFirst => by cases isFirst)
      rw [append_nil] at isWord
      exact isWord
    · refine .inl ⟨isOdd, "few", .inl rfl, ?_⟩
      rw [unicode.folds_lower.letter (by decide) isS isOdd]
      rfl

def unitWords : List String := ["days", "weeks", "months"]

theorem reach_known {word named : String} (isWord : word = "few" ∨ word = "couple") :
    (vagueDays.lookup (word, named)).isSome = true ↔ named ∈ unitWords := by
  rcases isWord with rfl | rfl
  · rw [lookup_isSome_iff]
    simp [vagueDays, unitWords]
  · rw [lookup_isSome_iff]
    simp [vagueDays, unitWords]

theorem reach_unknown (named : String) :
    vagueDays.lookup (String.ofList longSeveral, named) = none := by
  rw [lookup_eq_none_iff]
  intro entry isEntry
  have counts : ∀ entry ∈ vagueDays, entry.1.1 ≠ String.ofList longSeveral := by decide
  rw [bne_iff_ne]
  intro same
  exact counts entry isEntry (congrArg Prod.fst same).symm

theorem vague_answered (inside : Inside day) {counted named : List Char}
    (isCounted : m.group Group.vague = some counted) (isNamed : m.group Group.unit = some named)
    (countedLang : (any (literal "few") [couplePattern unicode, literal "several"]).Lang counted)
    (namedLang : (oneOf "days" ["weeks", "months"]).Lang named) :
    Answered (Rule.vague unicode m day)
      (Spelled (m.group Group.vague) ∧ Spelled (m.group Group.unit)) := by
  have known := unicode.lower_mem_iff (show
    (unitWords.all fun word => word.toList.all Char.isLower) =
    true by decide) (List.Subset.refl _) namedLang
  rw [isCounted, isNamed, spelled_some, spelled_some, Rule.vague, lowered_some isCounted,
    lowered_some isNamed, ← known]
  rcases countedWord_cases countedLang with ⟨even, word, isWord, isLowered⟩ | ⟨odd, isLowered⟩
  · have reaches := @reach_known word (String.ofList (unicode.lower named)) isWord
    rw [isLowered, and_iff_right even, ← reaches]
    dsimp only
    rw [String.ofList_toList]
    cases isReach : vagueDays.lookup (word, String.ofList (unicode.lower named)) with
    | none =>
      refine ⟨fun impossible => ?_, fun _ => ⟨.date .keyError, rfl⟩⟩
      cases impossible
    | some reach =>
      have bounded : ∀ entry ∈ vagueDays,
          0 ≤ entry.2.2 ∧ entry.2.2 ≤ entry.2.1 ∧ entry.2.1 ≤ 365 := by decide
      obtain ⟨before, after, isTable, -⟩ := lookup_eq_some_iff.mp isReach
      have isEntry : ((word, String.ofList (unicode.lower named)), reach) ∈ vagueDays := by
        rw [isTable]
        exact mem_append_right _ mem_cons_self
      have answered := @reaching_answered day inside _ (bounded _ isEntry)
      obtain ⟨days, isOk, ordered⟩ := (answered.mapError EnglishError.date).ok trivial
      dsimp only
      rw [isOk]
      exact answered_ok ordered rfl
  · rw [isLowered]
    dsimp only
    rw [reach_unknown]
    exact ⟨fun both => absurd both.1 odd, fun _ => ⟨.date .keyError, rfl⟩⟩

/-- What resolving a match needs. -/
def Understood (m : Match Char) : Prop :=
  Spelled (m.group Group.wd) ∧ Spelled (m.group Group.vague) ∧ Spelled (m.group Group.unit)
deriving Decidable

theorem understood_unset (noWeekday : m.group Group.wd = none)
    (noCount : m.group Group.vague = none) (noUnit : m.group Group.unit = none) : Understood m := by
  rw [Understood, noWeekday, noCount, noUnit]
  exact ⟨spelled_none, spelled_none, spelled_none⟩

theorem daysOf_first (place : ℕ) {after : List (ℕ × (Match Char → ℤ → Except EnglishError Range))}
    {rule : Match Char → ℤ → Except EnglishError Range} {taken : List Char}
    (rules : englishRules unicode = (englishRules unicode).take place ++ (number, rule) :: after)
    (unset : ∀ earlier ∈ ((englishRules unicode).take place).map Prod.fst, m.group earlier = none)
    (isSet : m.group number = some taken) (someText : taken ≠ []) :
    daysOf unicode day m = rule m day := by
  have isFirst : (englishRules unicode).find? (fun rule => (m.group rule.1).getD [] ≠ []) =
      some (number, rule) := by
    rw [rules, find?_append, find?_eq_none.mpr ?_, Option.none_or, find?_cons_of_pos]
    · rw [isSet]
      exact decide_eq_true someText
    · intro earlier isEarlier
      rw [unset earlier.1 (mem_map_of_mem isEarlier)]
      exact Bool.false_ne_true
  rw [daysOf, isFirst]

theorem daysOf_answered (inside : Inside day) (isFound : (englishPattern unicode).Found m) :
    Answered (daysOf unicode day m) (Understood m) := by
  have choice : ∃ chosen ∈ [weekdayPattern unicode, weekendPattern unicode,
      todayPattern unicode, periodPattern unicode,
      vaguePattern unicode], chosen.Leaves m := Found.chosen isFound
  obtain ⟨chosen, isChosen, leaves⟩ := choice
  rcases mem_cons.mp isChosen with rfl | isChosen
  · obtain ⟨word, isWord, inLang⟩ :=
      leaves.setsBody (show (weekdayPattern unicode).sets Group.wd = true from rfl) rfl
    have noCount : m.group Group.vague = none := leaves.unset rfl
    have noUnit : m.group Group.unit = none := leaves.unset rfl
    rw [daysOf_first 0 rfl (fun _ isEarlier => by cases isEarlier) isWord (inLang.nonempty rfl),
      Understood, noCount, noUnit, and_iff_left (And.intro spelled_none spelled_none)]
    exact (weekday_answered inside isWord inLang).mapError EnglishError.date
  rcases mem_cons.mp isChosen with rfl | isChosen
  · obtain ⟨word, isWord, inLang⟩ :=
      leaves.setsBody (show (weekendPattern unicode).sets Group.weDir = true from rfl) rfl
    have noWeekday : m.group Group.wd = none := leaves.unset rfl
    have understood := understood_unset noWeekday (leaves.unset rfl) (leaves.unset rfl)
    have unset : ∀ earlier ∈ [Group.wd], m.group earlier = none := by simpa using noWeekday
    rw [daysOf_first 1 rfl unset isWord (inLang.nonempty rfl), iff_true_intro understood]
    exact (weekend_answered inside).mapError EnglishError.date
  rcases mem_cons.mp isChosen with rfl | isChosen
  · obtain ⟨words, areWords, inLang⟩ :=
      leaves.setsBody (show (todayPattern unicode).sets Group.today = true from rfl) rfl
    have noWeekday : m.group Group.wd = none := leaves.unset rfl
    have noWeekend : m.group Group.weDir = none := leaves.unset rfl
    have understood := understood_unset noWeekday (leaves.unset rfl) (leaves.unset rfl)
    have unset : ∀ earlier ∈ [Group.wd, Group.weDir], m.group earlier = none := by
      simpa using And.intro noWeekday noWeekend
    rw [daysOf_first 2 rfl unset areWords (inLang.nonempty rfl)]
    exact answered_ok (le_refl day) understood
  rcases mem_cons.mp isChosen with rfl | isChosen
  · obtain ⟨word, isWord, inLang⟩ :=
      leaves.setsBody (show (periodPattern unicode).sets Group.period = true from rfl) rfl
    have noWeekday : m.group Group.wd = none := leaves.unset rfl
    have noWeekend : m.group Group.weDir = none := leaves.unset rfl
    have notToday : m.group Group.today = none := leaves.unset rfl
    have understood := understood_unset noWeekday (leaves.unset rfl) (leaves.unset rfl)
    have unset : ∀ earlier ∈ [Group.wd, Group.weDir, Group.today], m.group earlier = none := by
      simpa using And.intro noWeekday (And.intro noWeekend notToday)
    rw [daysOf_first 3 rfl unset isWord (inLang.nonempty rfl), iff_true_intro understood]
    exact (period_answered inside).mapError EnglishError.date
  · obtain rfl := mem_singleton.mp isChosen
    obtain ⟨counted, isCounted, countedLang⟩ :=
      leaves.setsBody (show (vaguePattern unicode).sets Group.vague = true from rfl) rfl
    obtain ⟨named, isNamed, namedLang⟩ :=
      leaves.setsBody (show (vaguePattern unicode).sets Group.unit = true from rfl) rfl
    have noWeekday : m.group Group.wd = none := leaves.unset rfl
    have noWeekend : m.group Group.weDir = none := leaves.unset rfl
    have notToday : m.group Group.today = none := leaves.unset rfl
    have noPeriod : m.group Group.period = none := leaves.unset rfl
    have unset : ∀ earlier ∈ [Group.wd, Group.weDir, Group.today, Group.period],
        m.group earlier = none := by
      simpa using And.intro noWeekday (And.intro noWeekend (And.intro notToday noPeriod))
    rw [daysOf_first 4 rfl unset isCounted (countedLang.nonempty rfl), Understood, noWeekday,
      and_iff_right spelled_none]
    exact vague_answered inside isCounted isNamed countedLang namedLang

theorem dated_iff (inside : Inside day) (text : List Char) :
    (∃ found, dated unicode text day = .ok found ∧ ∀ each ∈ found, each.2.1 ≤ each.2.2) ↔
      ∀ m ∈ (englishPattern unicode).finditer text, Understood m := by
  constructor
  · rintro ⟨found, isFound, -⟩ m isMatch
    by_contra notUnderstood
    obtain ⟨raised, isRaised⟩ :=
      (@daysOf_answered unicode m day inside (mem_finditer isMatch).1).fails notUnderstood
    obtain ⟨first, isFirst⟩ :=
      mapM_fails (f := fun m => (daysOf unicode day m).map fun days => (m, days)) isMatch
        ⟨raised, by rw [isRaised]; rfl⟩
    rw [dated, isFirst] at isFound
    cases isFound
  · intro understood
    refine mapM_ok fun m isMatch => ?_
    obtain ⟨days, isOk, ordered⟩ :=
      (@daysOf_answered unicode m day inside (mem_finditer isMatch).1).ok (understood m isMatch)
    exact ⟨(m, days), by rw [isOk]; rfl, ordered⟩

/-- The fiscal and the English phrases of a text are resolved to days in order, or passed over,
exactly when the fiscal phrases that are looked up and the English matches have what they need. -/
theorem time_phrases_resolved_iff (unicode : Unicode) (text : List Char) (day : ℤ)
    (calendar : FiscalCalendar) (limit : ℕ) (inside : Inside day) :
    ((∃ mentions, resolveFiscalMentions unicode text day calendar limit = .ok mentions ∧
          ∀ mention ∈ mentions, mention.start ≤ mention.stop) ∧
        ∃ found, dated unicode text day = .ok found ∧ (∀ each ∈ found, each.2.1 ≤ each.2.2) ∧
          english unicode text day = .ok (found.map mentionOf)) ↔
      Readable unicode text day calendar ∧
        ∀ m ∈ (englishPattern unicode).finditer text, Understood m := by
  refine and_congr (fiscal_mentions_iff unicode text day calendar limit) ?_
  rw [← dated_iff inside]
  constructor
  · rintro ⟨found, isFound, ordered, -⟩
    exact ⟨found, isFound, ordered⟩
  · rintro ⟨found, isFound, ordered⟩
    exact ⟨found, isFound, ordered, by rw [english, isFound]; rfl⟩

theorem time_phrases_resolved_iff_september :
    Inside inSeptember ∧
      (((∃ mentions, resolveFiscalMentions latin "LY, last Friday".toList inSeptember {} 6 =
            .ok mentions ∧ ∀ mention ∈ mentions, mention.start ≤ mention.stop) ∧
          ∃ found, dated latin "LY, last Friday".toList inSeptember = .ok found ∧
            (∀ each ∈ found, each.2.1 ≤ each.2.2) ∧
            english latin "LY, last Friday".toList inSeptember = .ok (found.map mentionOf)) ↔
        Readable latin "LY, last Friday".toList inSeptember {} ∧
          ∀ m ∈ (englishPattern latin).finditer "LY, last Friday".toList, Understood m) :=
  ⟨by decide, time_phrases_resolved_iff latin "LY, last Friday".toList inSeptember {} 6 (by decide)⟩

/-- A year that no date has, a dotless `i` and a long `s` are matched, and raise. -/
theorem absurd_year_raises :
    Inside inSeptember ∧
      resolveFiscalMentions latin "plan for FY9999".toList inSeptember {} 6 = .error .valueError ∧
      resolveFiscalMentions latin "th\u0131s week".toList inSeptember {} 6 = .error .keyError ∧
      english latin "next \u017funday".toList inSeptember = .error (.date .valueError) :=
  ⟨by decide, by decide +kernel, by decide +kernel, by decide +kernel⟩

end

end MemoryService.Memory.Temporal
