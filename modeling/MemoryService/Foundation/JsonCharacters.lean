import MemoryService.Foundation.JsonRoundTrip

/-!
# The characters of a written text

The writer escapes the quote, the backslash and the control characters and leaves everything else
alone.
-/

namespace MemoryService.Foundation.Json

open List

mutual

def strings : Json → List String
  | .null | .bool _ | .num _ => []
  | .str value => [value]
  | .arr items => stringsOfItems items
  | .obj members => stringsOfMembers members

def stringsOfItems : List Json → List String
  | [] => []
  | item :: items => strings item ++ stringsOfItems items

def stringsOfMembers : List (String × Json) → List String
  | [] => []
  | (key, value) :: members => key :: strings value ++ stringsOfMembers members

end

/-- The printable part of ASCII, and delete. -/
def isPlain (c : Char) : Bool := 32 ≤ c.toNat && c.toNat < 128

/-- What is not plain stands in some string, and is no control character. -/
def Raw (c : Char) (texts : List String) : Prop := 128 ≤ c.toNat ∧ ∃ text ∈ texts, c ∈ text.toList

theorem Raw.append_iff {c : Char} {first second : List String} :
    Raw c (first ++ second) ↔ Raw c first ∨ Raw c second := by
  simp only [Raw, mem_append, or_and_right, exists_or, and_or_left]

variable {c x : Char}

theorem Raw.cons_iff {first : String} {others : List String} :
    Raw c (first :: others) ↔ Raw c [first] ∨ Raw c others :=
  @Raw.append_iff c [first] others

theorem not_raw_nil (c : Char) : ¬Raw c [] := by
  rintro ⟨-, text, member, -⟩
  cases member

theorem isPlain_of_wordChar (wordChar : JsonText.isWordChar c = true) : isPlain c = true := by
  delta JsonText.isWordChar Char.isAlphanum Char.isAlpha Char.isUpper Char.isLower
    Char.isDigit at wordChar
  simp only [Bool.or_eq_true, Bool.and_eq_true, decide_eq_true_eq, beq_iff_eq,
    UInt32.le_iff_toNat_le, ge_iff_le] at wordChar
  simp only [isPlain, Bool.and_eq_true, decide_eq_true_eq, Char.toNat]
  rcases wordChar with (((((upper | lower) | digit) | rfl) | rfl) | rfl)
  · change 65 ≤ _ ∧ _ ≤ 90 at upper
    omega
  · change 97 ≤ _ ∧ _ ≤ 122 at lower
    omega
  · change 48 ≤ _ ∧ _ ≤ 57 at digit
    omega
  all_goals decide

theorem isPlain_hexDigit :
    ∀ n < 32, isPlain (hexDigit (n / 16)) = true ∧ isPlain (hexDigit (n % 16)) = true := by
  decide

theorem escapeChar_cases (c : Char) :
    escapeChar c = [c] ∧ 32 ≤ c.toNat ∨ (∀ x ∈ escapeChar c, isPlain x = true) ∧ c.toNat < 128 := by
  unfold escapeChar
  by_cases quote : c = '"'
  · subst c
    exact .inr ⟨all_eq_true.mp rfl, by decide⟩
  by_cases backslash : c = '\\'
  · subst c
    exact .inr ⟨all_eq_true.mp rfl, by decide⟩
  by_cases newline : c = '\n'
  · subst c
    exact .inr ⟨all_eq_true.mp rfl, by decide⟩
  by_cases carriage : c = '\r'
  · subst c
    exact .inr ⟨all_eq_true.mp rfl, by decide⟩
  by_cases tab : c = '\t'
  · subst c
    exact .inr ⟨all_eq_true.mp rfl, by decide⟩
  by_cases formFeed : c = '\x0c'
  · subst c
    exact .inr ⟨all_eq_true.mp rfl, by decide⟩
  by_cases backspace : c = '\x08'
  · subst c
    exact .inr ⟨all_eq_true.mp rfl, by decide⟩
  simp only [quote, backslash, newline, carriage, tab, formFeed, backspace, if_false]
  by_cases control : c.toNat < 32
  · right
    obtain ⟨high, low⟩ := isPlain_hexDigit c.toNat control
    refine ⟨?_, by omega⟩
    rw [if_pos control]
    intro x member
    simp only [mem_cons, not_mem_nil, or_false] at member
    rcases member with rfl | rfl | rfl | rfl | rfl | rfl
    case inr.inr.inr.inr.inl => exact high
    case inr.inr.inr.inr.inr => exact low
    all_goals decide
  · left
    exact ⟨if_neg control, Nat.le_of_not_lt control⟩

section

variable (notPlain : isPlain x = false)
include notPlain

theorem mem_escapeChars_iff (text : List Char) :
    x ∈ escapeChars text ↔ 128 ≤ x.toNat ∧ x ∈ text := by
  induction text with
  | nil => simp [escapeChars]
  | cons c text ih =>
    have unfolded : escapeChars (c :: text) = escapeChar c ++ escapeChars text := flatMap_cons
    rw [unfolded, mem_append, ih, mem_cons, and_or_left]
    refine or_congr_left ?_
    rcases escapeChar_cases c with ⟨itself, high⟩ | ⟨plain, low⟩
    · rw [itself, mem_singleton]
      constructor
      · rintro rfl
        refine ⟨?_, rfl⟩
        simp only [isPlain, Bool.and_eq_false_iff, decide_eq_false_iff_not] at notPlain
        omega
      · exact And.right
    · constructor
      · intro member
        rw [plain x member] at notPlain
        cases notPlain
      · rintro ⟨wide, rfl⟩
        omega

theorem mem_dumpsString_iff (text : String) :
    x ∈ dumpsString text ↔ Raw x [text] := by
  have notQuote : x ≠ '"' := by
    rintro rfl
    revert notPlain
    decide
  simp only [dumpsString, mem_cons, mem_append, notQuote,
    mem_escapeChars_iff notPlain, false_or, not_mem_nil, or_false, Raw,
    exists_eq_left]

theorem ne_of_isPlain (plain : isPlain c = true) : x ≠ c := by
  rintro rfl
  rw [plain] at notPlain
  cases notPlain

theorem not_mem_of_all_plain {text : List Char}
    (plain : text.all isPlain = true) : x ∉ text := by
  intro member
  exact ne_of_isPlain notPlain (all_eq_true.mp plain x member) rfl

end

mutual

theorem mem_dumps_iff (notPlain : isPlain x = false) :
    ∀ value : Json, x ∈ dumps value ↔ Raw x (strings value)
  | .null => by
    rw [dumps, strings]
    exact iff_of_false (not_mem_of_all_plain notPlain (by decide)) (not_raw_nil x)
  | .bool true => by
    rw [dumps, strings]
    exact iff_of_false (not_mem_of_all_plain notPlain (by decide)) (not_raw_nil x)
  | .bool false => by
    rw [dumps, strings]
    exact iff_of_false (not_mem_of_all_plain notPlain (by decide)) (not_raw_nil x)
  | .num value => by
    rw [dumps, strings]
    refine iff_of_false ?_ (not_raw_nil x)
    intro member
    have wordChar := all_eq_true.mp value.wordChars x member
    exact ne_of_isPlain notPlain (isPlain_of_wordChar wordChar) rfl
  | .str value => by
    rw [dumps, strings]
    exact mem_dumpsString_iff notPlain value
  | .arr items => by
    have notBracket : x ≠ '[' := ne_of_isPlain notPlain (by decide)
    rw [dumps, strings, mem_cons, mem_dumpsItems_iff notPlain items]
    exact or_iff_right notBracket
  | .obj members => by
    have notBrace : x ≠ '{' := ne_of_isPlain notPlain (by decide)
    rw [dumps, strings, mem_cons, mem_dumpsMembers_iff notPlain members]
    exact or_iff_right notBrace

theorem mem_dumpsItems_iff (notPlain : isPlain x = false) :
    ∀ items : List Json, x ∈ dumpsItems items ↔ Raw x (stringsOfItems items)
  | [] => by
    rw [dumpsItems, stringsOfItems]
    exact iff_of_false (not_mem_of_all_plain notPlain (by decide)) (not_raw_nil x)
  | [item] => by
    have notBracket : x ≠ ']' := ne_of_isPlain notPlain (by decide)
    rw [dumpsItems, stringsOfItems, stringsOfItems, append_nil,
      mem_append, mem_dumps_iff notPlain item, mem_singleton]
    exact or_iff_left notBracket
  | item :: next :: items => by
    have notComma : x ≠ ',' := ne_of_isPlain notPlain (by decide)
    rw [dumpsItems_cons, stringsOfItems, Raw.append_iff, mem_append,
      mem_dumps_iff notPlain item, mem_cons,
      mem_dumpsItems_iff notPlain (next :: items)]
    exact or_congr_right (or_iff_right notComma)

theorem mem_dumpsMembers_iff (notPlain : isPlain x = false) :
    ∀ members : List (String × Json), x ∈ dumpsMembers members ↔ Raw x (stringsOfMembers members)
  | [] => by
    rw [dumpsMembers, stringsOfMembers]
    exact iff_of_false (not_mem_of_all_plain notPlain (by decide)) (not_raw_nil x)
  | [(key, value)] => by
    have notColon : x ≠ ':' := ne_of_isPlain notPlain (by decide)
    have notBrace : x ≠ '}' := ne_of_isPlain notPlain (by decide)
    rw [dumpsMembers, stringsOfMembers, stringsOfMembers, append_nil,
      Raw.cons_iff, mem_append, mem_cons, mem_append, mem_dumpsString_iff notPlain,
        mem_dumps_iff notPlain value,
      mem_singleton]
    exact or_congr_right ((or_iff_right notColon).trans (or_iff_left notBrace))
  | (key, value) :: next :: members => by
    have notColon : x ≠ ':' := ne_of_isPlain notPlain (by decide)
    have notComma : x ≠ ',' := ne_of_isPlain notPlain (by decide)
    rw [dumpsMembers_cons, stringsOfMembers, Raw.append_iff,
      Raw.cons_iff, or_assoc, mem_append,
      mem_cons, mem_append, mem_cons,
      mem_dumpsString_iff notPlain, mem_dumps_iff notPlain value,
      mem_dumpsMembers_iff notPlain (next :: members)]
    exact or_congr_right ((or_iff_right notColon).trans (or_congr_right (or_iff_right notComma)))

end

end MemoryService.Foundation.Json
