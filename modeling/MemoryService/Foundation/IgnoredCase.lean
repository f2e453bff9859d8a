import Mathlib.Data.List.Forall2
import MemoryService.Foundation.Regex

/-!
# Patterns of characters, with case ignored

With case ignored a letter of a pattern matches more than its two cases: `s` also matches the
long s, `k` the Kelvin sign and `i` both the dotted capital and the dotless small letter.
-/

namespace MemoryService.Foundation

open List

def otherSpellings (letter : Char) : List Char :=
  if letter = 's' then ['\u017f']
  else if letter = 'k' then ['\u212a']
  else if letter = 'i' then ['\u0130', '\u0131']
  else []

def spellingsOf (letter : Char) : List Char := letter :: letter.toUpper :: otherSpellings letter

structure Unicode where
  isWord : Char → Bool
  isSpace : Char → Bool
  isAlpha : Char → Bool
  digit : Char → Option ℕ
  lowerOf : Char → List Char
  lower : List Char → List Char
  casefold : Char → List Char
  digitLt : ∀ {c : Char} {value : ℕ}, digit c = some value → value < 10
  digitAscii : ∀ value < 10, digit (Char.ofNat (48 + value)) = some value
  lowerEq : ∀ {text : List Char}, '\u03a3' ∉ text → lower text = text.flatMap lowerOf
  lowerLetter : ∀ {c : Char}, c.isLower = true → lowerOf c = [c] ∧ lowerOf c.toUpper = [c]
  lowerKelvin : lowerOf '\u212a' = ['k']
  lowerLongS : lowerOf '\u017f' = ['\u017f']
  lowerDotted : lowerOf '\u0130' = ['i', '\u0307']
  lowerDotless : lowerOf '\u0131' = ['\u0131']
  casefoldLetter : ∀ {c : Char}, c.isLower = true → casefold c = [c] ∧ casefold c.toUpper = [c]
  casefoldKelvin : casefold '\u212a' = ['k']
  casefoldLongS : casefold '\u017f' = ['s']
  casefoldDotted : casefold '\u0130' = ['i', '\u0307']
  casefoldDotless : casefold '\u0131' = ['\u0131']
  spaceLower : ∀ {c : Char}, isSpace c = true → lowerOf c = [c]
  spaceNotSigma : isSpace '\u03a3' = false
  spellingNotSpace : ∀ {letter c : Char}, letter.isLower = true → c ∈ spellingsOf letter →
    isSpace c = false

namespace Unicode

variable (unicode : Unicode)

def casefolded (text : List Char) : String := String.ofList (text.flatMap unicode.casefold)

/-- `int` of decimal digits -/
def int (digits : List Char) : ℕ :=
  digits.foldl (fun value c => 10 * value + (unicode.digit c).getD 0) 0

def strip (text : List Char) : List Char :=
  ((text.dropWhile unicode.isSpace).reverse.dropWhile unicode.isSpace).reverse

end Unicode

namespace Regex

def literal (word : String) : Regex Char :=
  all (word.toList.map fun letter => one (spellingsOf letter).contains)

def oneOf (first : String) (rest : List String) : Regex Char :=
  any (literal first) (rest.map literal)

def apostrophe : Char := Char.ofNat 39

def exactly (character : Char) : Regex Char := one (· == character)

section

variable (unicode : Unicode)

def space : Regex Char := one unicode.isSpace

def spaces : Regex Char := plus (space unicode)

def digit : Regex Char := one fun c => (unicode.digit c).isSome

/-- `\b` -/
def boundary : Regex Char :=
  look fun before after => before.head?.any unicode.isWord != after.head?.any unicode.isWord

end

variable {text letters : List Char} {c letter : Char}

theorem lang_all_cons {first : Regex Char} {rest : List (Regex Char)} :
    (all (first :: rest)).Lang text ↔
      ∃ front back, text = front ++ back ∧ first.Lang front ∧ (all rest).Lang back := by
  cases rest with
  | nil =>
    constructor
    · intro inLang
      exact ⟨text, [], (append_nil text).symm, inLang, rfl⟩
    · rintro ⟨front, back, rfl, inLang, isEmpty⟩
      rw [show back = [] from isEmpty, append_nil]
      exact inLang
  | cons second rest => exact Iff.rfl

theorem lang_letters :
    (all (letters.map fun letter => one (spellingsOf letter).contains)).Lang text ↔
      List.Forall₂ (fun c letter => c ∈ spellingsOf letter) text letters := by
  induction letters generalizing text with
  | nil =>
    rw [List.forall₂_nil_right_iff]
    exact Iff.rfl
  | cons letter rest ih =>
    rw [map_cons, lang_all_cons]
    constructor
    · rintro ⟨front, back, rfl, ⟨c, rfl, isSpelling⟩, inRest⟩
      exact List.Forall₂.cons (contains_iff_mem.mp isSpelling) (ih.mp inRest)
    · intro spelled
      cases spelled with
      | cons isSpelling inRest =>
        exact ⟨[_], _, rfl, ⟨_, rfl, contains_iff_mem.mpr isSpelling⟩, ih.mpr inRest⟩

theorem lang_literal {word : String} :
    (literal word).Lang text ↔
      List.Forall₂ (fun c letter => c ∈ spellingsOf letter) text word.toList := lang_letters

theorem lang_any {first : Regex Char} {rest : List (Regex Char)} :
    (any first rest).Lang text ↔ ∃ chosen ∈ first :: rest, chosen.Lang text := by
  induction rest generalizing first with
  | nil => simp [any]
  | cons second rest ih =>
    rw [any, Lang, ih, exists_mem_cons_iff (a := first)]

theorem lang_oneOf {first : String} {rest : List String} :
    (oneOf first rest).Lang text ↔ ∃ word ∈ first :: rest, (literal word).Lang text := by
  rw [oneOf, lang_any, ← map_cons]
  simp only [mem_map, exists_exists_and_eq_and]

end Regex

theorem exists_of_isLower (isLetter : c.isLower = true) :
    ∃ place < 26, c = Char.ofNat (97 + place) := by
  have bounds : 97 ≤ c.toNat ∧ c.toNat ≤ 122 := by
    obtain ⟨atLeast, atMost⟩ := Bool.and_eq_true_iff.mp isLetter
    exact ⟨of_decide_eq_true atLeast, of_decide_eq_true atMost⟩
  refine ⟨c.toNat - 97, by omega, ?_⟩
  rw [show 97 + (c.toNat - 97) = c.toNat by omega, Char.ofNat_toNat]

theorem of_spellings (holds : Char → Char → Bool)
    (all : ((List.range 26).all fun place => (spellingsOf (Char.ofNat (97 + place))).all
      (holds (Char.ofNat (97 + place)))) = true)
    (isLetter : letter.isLower = true) (isSpelling : c ∈ spellingsOf letter) :
    holds letter c = true := by
  obtain ⟨place, isPlace, rfl⟩ := exists_of_isLower isLetter
  have each := all_eq_true.mp all place (mem_range.mpr isPlace)
  exact all_eq_true.mp each c isSpelling

theorem sigma_not_spelling (isLetter : letter.isLower = true)
    (isSpelling : c ∈ spellingsOf letter) : c ≠ '\u03a3' := by
  have differs := of_spellings (fun _ c => c != '\u03a3') (by decide) isLetter isSpelling
  exact bne_iff_ne.mp differs

theorem sigma_not_in_spelled
    (spelled : List.Forall₂ (fun c letter => c ∈ spellingsOf letter) text letters)
    (isWord : ∀ letter ∈ letters, letter.isLower = true) : '\u03a3' ∉ text := by
  induction spelled with
  | nil => exact not_mem_nil
  | cons isSpelling _ ih =>
    rw [mem_cons, not_or]
    refine ⟨(sigma_not_spelling (isWord _ mem_cons_self) isSpelling).symm, ?_⟩
    exact ih fun letter isLater => isWord letter (mem_cons_of_mem _ isLater)

variable (unicode : Unicode)

theorem Unicode.lower_spelled
    (spelled : List.Forall₂ (fun c letter => c ∈ spellingsOf letter) text letters)
    (isWord : ∀ letter ∈ letters, letter.isLower = true) :
    unicode.lower text = text.flatMap unicode.lowerOf :=
  unicode.lowerEq (sigma_not_in_spelled spelled isWord)

/-- What folding does to the spellings of letters: all but the odd ones become the letter, and
those become something that is no letter of a word. -/
structure Folds (fold : Char → List Char) (odd : List Char) : Prop where
  letter : ∀ {letter c : Char}, letter.isLower = true → c ∈ spellingsOf letter → c ∉ odd →
    fold c = [letter]
  odd : ∀ {c : Char}, c ∈ odd → ∃ mark ∈ fold c, mark.isLower = false

theorem spelling_cases (isSpelling : c ∈ spellingsOf letter) :
    c = letter ∨ c = letter.toUpper ∨ c = '\u017f' ∧ letter = 's' ∨ c = '\u212a' ∧ letter = 'k' ∨
      c ∈ ['\u0130', '\u0131'] := by
  rcases mem_cons.mp isSpelling with isSame | isSpelling
  · exact .inl isSame
  rcases mem_cons.mp isSpelling with isUpper | isOther
  · exact .inr (.inl isUpper)
  rw [otherSpellings] at isOther
  split_ifs at isOther with isS isK
  · exact .inr (.inr (.inl ⟨mem_singleton.mp isOther, isS⟩))
  · exact .inr (.inr (.inr (.inl ⟨mem_singleton.mp isOther, isK⟩)))
  · exact .inr (.inr (.inr (.inr isOther)))
  · cases isOther

theorem Unicode.folds_casefold :
    Folds unicode.casefold ['\u0130', '\u0131'] where
  letter := by
    intro letter c isLetter isSpelling notOdd
    rcases spelling_cases isSpelling with rfl | rfl | ⟨rfl, rfl⟩ | ⟨rfl, rfl⟩ | isOdd
    · exact (unicode.casefoldLetter isLetter).1
    · exact (unicode.casefoldLetter isLetter).2
    · exact unicode.casefoldLongS
    · exact unicode.casefoldKelvin
    · exact absurd isOdd notOdd
  odd := by
    intro c isOdd
    rcases mem_cons.mp isOdd with rfl | isOdd
    · exact ⟨'\u0307', by rw [unicode.casefoldDotted]; decide, by decide⟩
    · rw [mem_singleton.mp isOdd]
      exact ⟨'\u0131', by rw [unicode.casefoldDotless]; decide, by decide⟩

theorem Unicode.folds_lower :
    Folds unicode.lowerOf ['\u0130', '\u0131', '\u017f'] where
  letter := by
    intro letter c isLetter isSpelling notOdd
    rcases spelling_cases isSpelling with rfl | rfl | ⟨rfl, rfl⟩ | ⟨rfl, rfl⟩ | isOdd
    · exact (unicode.lowerLetter isLetter).1
    · exact (unicode.lowerLetter isLetter).2
    · exact absurd (by decide) notOdd
    · exact unicode.lowerKelvin
    · exact absurd (mem_append_left ['\u017f'] isOdd) notOdd
  odd := by
    intro c isOdd
    rcases mem_cons.mp isOdd with rfl | isOdd
    · exact ⟨'\u0307', by rw [unicode.lowerDotted]; decide, by decide⟩
    rcases mem_cons.mp isOdd with rfl | isOdd
    · exact ⟨'\u0131', by rw [unicode.lowerDotless]; decide, by decide⟩
    · rw [mem_singleton.mp isOdd]
      exact ⟨'\u017f', by rw [unicode.lowerLongS]; decide, by decide⟩

/-- The letters that lowering leaves as no letter of a word. -/
def oddLowers : List Char := ['\u0130', '\u0131', '\u017f']

namespace Folds

variable {fold : Char → List Char} {odd text letters : List Char}

theorem of_spelled (folds : Folds fold odd)
    (spelled : List.Forall₂ (fun c letter => c ∈ spellingsOf letter) text letters)
    (isWord : ∀ letter ∈ letters, letter.isLower = true) (notOdd : ∀ c ∈ text, c ∉ odd) :
    text.flatMap fold = letters := by
  induction spelled with
  | nil => rfl
  | cons isSpelling _ ih =>
    rw [flatMap_cons, folds.letter (isWord _ mem_cons_self) isSpelling
      (notOdd _ mem_cons_self), singleton_append]
    exact congrArg _ (ih
      (fun letter isLater => isWord letter (mem_cons_of_mem _ isLater))
      fun c isLater => notOdd c (mem_cons_of_mem _ isLater))

theorem not_word (folds : Folds fold odd) (isIn : c ∈ text) (isOdd : c ∈ odd) :
    ¬∀ letter ∈ text.flatMap fold, letter.isLower = true := by
  intro isWord
  obtain ⟨mark, isMark, notLower⟩ := folds.odd isOdd
  have isLower := isWord mark (mem_flatMap.mpr ⟨c, isIn, isMark⟩)
  rw [notLower] at isLower
  cases isLower

theorem mem_words_iff (folds : Folds fold odd) {first : String} {rest : List String}
    (areWords : (words.all fun word => word.toList.all Char.isLower) = true)
    (within : first :: rest ⊆ words) (inLang : (Regex.oneOf first rest).Lang text) :
    String.ofList (text.flatMap fold) ∈ words ↔ ∀ c ∈ text, c ∉ odd := by
  have lowerWords : ∀ word ∈ words, ∀ letter ∈ word.toList, letter.isLower = true :=
    fun word isWord => all_eq_true.mp (all_eq_true.mp areWords word isWord)
  constructor
  · intro isWord c isIn isOdd
    refine folds.not_word isIn isOdd ?_
    have lower := lowerWords _ isWord
    rw [String.toList_ofList] at lower
    exact lower
  · intro notOdd
    obtain ⟨word, isWord, isText⟩ := Regex.lang_oneOf.mp inLang
    have folded := folds.of_spelled (Regex.lang_literal.mp isText)
      (lowerWords word (within isWord)) notOdd
    rw [folded, String.ofList_toList]
    exact within isWord

end Folds

theorem not_odd_of_spelled
    (spelled : List.Forall₂ (fun c letter => c ∈ spellingsOf letter) text letters)
    (areOthers : (letters.all fun letter => letter.isLower && letter != 's' && letter != 'i') =
      true) : ∀ c ∈ text, c ∉ oddLowers := by
  induction spelled with
  | nil =>
    intro c isIn
    cases isIn
  | cons isSpelling _ ih =>
    obtain ⟨isOther, others⟩ := Bool.and_eq_true_iff.mp areOthers
    obtain ⟨isLetter, notI⟩ := Bool.and_eq_true_iff.mp isOther
    obtain ⟨isLower, notS⟩ := Bool.and_eq_true_iff.mp isLetter
    have even := of_spellings (fun letter c => letter == 's' || letter == 'i' || c ∉ oddLowers)
      (by decide) isLower isSpelling
    refine forall_mem_cons.mpr ⟨?_, ih others⟩
    rw [beq_eq_false_iff_ne.mpr (bne_iff_ne.mp notS), beq_eq_false_iff_ne.mpr (bne_iff_ne.mp notI)]
      at even
    exact of_decide_eq_true even

theorem Unicode.lower_mem_iff (unicode : Unicode) {first : String} {rest : List String}
    (areWords : (words.all fun word => word.toList.all Char.isLower) = true)
    (within : first :: rest ⊆ words) (inLang : (Regex.oneOf first rest).Lang text) :
    String.ofList (unicode.lower text) ∈ words ↔ ∀ c ∈ text, c ∉ oddLowers := by
  obtain ⟨word, isWord, isText⟩ := Regex.lang_oneOf.mp inLang
  have isLower := all_eq_true.mp (all_eq_true.mp areWords word (within isWord))
  rw [unicode.lower_spelled (Regex.lang_literal.mp isText) isLower]
  exact unicode.folds_lower.mem_words_iff areWords within inLang

def latinLower (c : Char) : List Char :=
  if c = '\u212a' then ['k'] else if c = '\u0130' then ['i', '\u0307'] else [c.toLower]

/-- What is known of the characters of ASCII and of the odd letters. -/
def latin : Unicode where
  isWord c := c.isAlphanum || c = '_' || ['\u017f', '\u212a', '\u0130', '\u0131'].contains c
  isSpace c := c.isWhitespace
  isAlpha c := c.isAlpha || ['\u017f', '\u212a', '\u0130', '\u0131'].contains c
  digit c := if c.isDigit then some (c.toNat - 48) else none
  lowerOf := latinLower
  lower text := text.flatMap latinLower
  casefold c :=
    if c = '\u212a' then ['k'] else if c = '\u0130' then ['i', '\u0307']
    else if c = '\u017f' then ['s'] else [c.toLower]
  digitLt := by
    intro c value isDigit
    obtain ⟨digit, isDigit⟩ := Option.ite_none_right_eq_some.mp isDigit
    have atMost : c.toNat ≤ 57 := by
      exact of_decide_eq_true (Bool.and_eq_true_iff.mp digit).2
    have same := Option.some.inj isDigit
    omega
  digitAscii := by decide
  lowerEq := by
    intro text _
    rfl
  lowerLetter := by
    intro c isLetter
    obtain ⟨place, isPlace, rfl⟩ := exists_of_isLower isLetter
    revert place
    decide
  lowerKelvin := rfl
  lowerLongS := by decide
  lowerDotted := rfl
  lowerDotless := by decide
  casefoldLetter := by
    intro c isLetter
    obtain ⟨place, isPlace, rfl⟩ := exists_of_isLower isLetter
    revert place
    decide
  casefoldKelvin := rfl
  casefoldLongS := by decide
  casefoldDotted := rfl
  casefoldDotless := by decide
  spaceLower := by
    intro c isSpace
    rcases Bool.or_eq_true_iff.mp isSpace with isSpace | isLine
    · rcases Bool.or_eq_true_iff.mp isSpace with isSpace | isReturn
      · rcases Bool.or_eq_true_iff.mp isSpace with isBlank | isTab
        · rw [of_decide_eq_true isBlank]
          decide
        · rw [of_decide_eq_true isTab]
          decide
      · rw [of_decide_eq_true isReturn]
        decide
    · rw [of_decide_eq_true isLine]
      decide
  spaceNotSigma := by decide
  spellingNotSpace := by
    intro letter c isLetter isSpelling
    have notBlank := of_spellings (fun _ c => !c.isWhitespace) (by decide) isLetter isSpelling
    exact (Bool.not_eq_true' _).mp notBlank

end MemoryService.Foundation
