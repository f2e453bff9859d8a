import Mathlib.Data.List.TakeDrop
import Mathlib.Data.List.TakeWhile

/-!
# JSON texts

A value, the compact text written for it, and a recursive-descent reader of texts.
-/

namespace MemoryService.Foundation

open List

namespace JsonText

/-- The characters a bare word (`null`, `true`, `false` or a number) is made of. -/
def isWordChar (c : Char) : Bool := c.isAlphanum || c == '+' || c == '-' || c == '.'

def digits (text : List Char) : List Char × List Char := text.span Char.isDigit

/-- `[eE][+-]?[0-9]+`, or nothing, up to the end of the text. -/
def isExponent : List Char → Bool
  | [] => true
  | 'e' :: rest | 'E' :: rest =>
    let power :=
      match rest with
      | '+' :: unsigned | '-' :: unsigned => unsigned
      | unsigned => unsigned
    !power.isEmpty && power.all Char.isDigit
  | _ => false

/-- `(\.[0-9]+)?` and an exponent, up to the end of the text. -/
def isFraction : List Char → Bool
  | '.' :: rest =>
    let (fraction, exponent) := digits rest
    !fraction.isEmpty && isExponent exponent
  | rest => isExponent rest

/-- The number grammar `-?(0|[1-9][0-9]*)(\.[0-9]+)?([eE][+-]?[0-9]+)?`, and the
three words a lenient reader takes for the values without a numeral. -/
def isNumber (word : List Char) : Bool :=
  let unsigned := match word with | '-' :: rest => rest | rest => rest
  match digits unsigned with
  | ([], _) =>
    word == "NaN".toList || word == "Infinity".toList || word == "-Infinity".toList
  | ('0' :: _ :: _, _) => false
  | (_, rest) => isFraction rest

end JsonText

structure JsonNumber where
  word : List Char
  wordChars : word.all JsonText.isWordChar = true
  isNumber : JsonText.isNumber word = true
  deriving DecidableEq

namespace JsonNumber

theorem digitChar_ne_zero : ∀ n < 10, 0 < n → n.digitChar ≠ '0' := by
  decide

theorem head_toDigits_ne_zero : ∀ n : Nat, 0 < n → ∀ rest, Nat.toDigits 10 n ≠ '0' :: rest := by
  intro n
  induction n using Nat.strongRecOn with
  | ind n ih =>
    intro positive rest same
    by_cases small : n < 10
    · rw [Nat.toDigits_of_lt_base small] at same
      have first : n.digitChar = '0' := (cons.inj same).1
      exact digitChar_ne_zero n small positive first
    · have large : 10 ≤ n := Nat.le_of_not_lt small
      rw [Nat.toDigits_of_base_le (by decide) large] at same
      cases front : Nat.toDigits 10 (n / 10) with
      | nil => exact absurd front Nat.toDigits_ne_nil
      | cons first others =>
        rw [front, cons_append] at same
        have isZero : first = '0' := (cons.inj same).1
        subst isZero
        exact ih (n / 10) (by omega) (by omega) others front

theorem isDigit_toDigits (n : Nat) : ∀ c ∈ Nat.toDigits 10 n, c.isDigit = true := by
  intro c member
  exact Nat.isDigit_of_mem_toDigits (by decide) (by decide) member

theorem isWordChar_toDigits (n : Nat) : (Nat.toDigits 10 n).all JsonText.isWordChar = true := by
  rw [all_eq_true]
  intro c member
  simp only [JsonText.isWordChar, Char.isAlphanum, isDigit_toDigits n c member,
    Bool.or_true, Bool.true_or]

theorem isNumber_toDigits (n : Nat) : JsonText.isNumber (Nat.toDigits 10 n) = true := by
  have spanned : JsonText.digits (Nat.toDigits 10 n) = (Nat.toDigits 10 n, []) := by
    rw [JsonText.digits, span_eq_takeWhile_dropWhile,
      takeWhile_eq_self_iff.mpr (isDigit_toDigits n),
      dropWhile_eq_nil_iff.mpr (isDigit_toDigits n)]
  cases word : Nat.toDigits 10 n with
  | nil => exact absurd word Nat.toDigits_ne_nil
  | cons first rest =>
    have digit : first.isDigit = true :=
      isDigit_toDigits n first (by rw [word]; exact mem_cons_self)
    have notMinus : first ≠ '-' := by
      rintro rfl
      revert digit
      decide
    rw [word] at spanned
    rw [JsonText.isNumber, spanned]
    split
    case h_1 same => exact absurd (congrArg Prod.fst same) (cons_ne_nil _ _)
    case h_2 second others after same =>
      have leading : first :: rest = '0' :: second :: others := congrArg Prod.fst same
      have positive : 0 < n := by
        by_contra zero
        rw [Nat.eq_zero_of_not_pos zero, Nat.toDigits_zero, leading] at word
        cases word
      exact absurd (word.trans leading) (head_toDigits_ne_zero n positive _)
    case h_3 digits after _ _ same =>
      cases same
      rfl
    · intro others same
      exact absurd (cons.inj same).1 notMinus

def ofNat (n : Nat) : JsonNumber where
  word := Nat.toDigits 10 n
  wordChars := isWordChar_toDigits n
  isNumber := isNumber_toDigits n

end JsonNumber

inductive Json where
  | null
  | bool (value : Bool)
  | num (value : JsonNumber)
  | str (value : String)
  | arr (items : List Json)
  | obj (members : List (String × Json))

namespace Json

/-- `value[key]` of an object; `none` where the key, or the object, is missing. -/
def get? (value : Json) (key : String) : Option Json :=
  match value with
  | .obj members => members.lookup key
  | _ => none

def isStr (value : Json) (text : String) : Bool :=
  match value with
  | .str other => other = text
  | _ => false

/-- The lower-case hexadecimal digit of a number below sixteen. -/
def hexDigit (n : Nat) : Char :=
  if n < 10 then Char.ofNat (48 + n) else Char.ofNat (87 + n)

def escapeChar (c : Char) : List Char :=
  if c = '"' then ['\\', '"']
  else if c = '\\' then ['\\', '\\']
  else if c = '\n' then ['\\', 'n']
  else if c = '\r' then ['\\', 'r']
  else if c = '\t' then ['\\', 't']
  else if c = '\x0c' then ['\\', 'f']
  else if c = '\x08' then ['\\', 'b']
  else if c.toNat < 32 then
    ['\\', 'u', '0', '0', hexDigit (c.toNat / 16), hexDigit (c.toNat % 16)]
  else [c]

def escapeChars (text : List Char) : List Char := text.flatMap escapeChar

def dumpsString (text : String) : List Char :=
  '"' :: (escapeChars text.toList ++ ['"'])

mutual

def dumps : Json → List Char
  | .null => "null".toList
  | .bool true => "true".toList
  | .bool false => "false".toList
  | .num value => value.word
  | .str value => dumpsString value
  | .arr items => '[' :: dumpsItems items
  | .obj members => '{' :: dumpsMembers members

def dumpsItems : List Json → List Char
  | [] => [']']
  | [item] => dumps item ++ [']']
  | item :: items => dumps item ++ ',' :: dumpsItems items

def dumpsMembers : List (String × Json) → List Char
  | [] => ['}']
  | [(key, value)] => dumpsString key ++ ':' :: (dumps value ++ ['}'])
  | (key, value) :: members =>
    dumpsString key ++ ':' :: (dumps value ++ ',' :: dumpsMembers members)

end

def isSpace (c : Char) : Bool := c == ' ' || c == '\t' || c == '\n' || c == '\r'

def skipSpace : List Char → List Char
  | [] => []
  | c :: rest => if isSpace c then skipSpace rest else c :: rest

def hexValue (c : Char) : Option Nat :=
  if c.isDigit then some (c.toNat - 48)
  else if 'a' ≤ c ∧ c ≤ 'f' then some (c.toNat - 87)
  else if 'A' ≤ c ∧ c ≤ 'F' then some (c.toNat - 55)
  else none

def hexValue4 (a b c d : Char) : Option Nat := do
  let a ← hexValue a
  let b ← hexValue b
  let c ← hexValue c
  let d ← hexValue d
  return ((a * 16 + b) * 16 + c) * 16 + d

/-- What a one-letter escape stands for. -/
def unescape : Char → Option Char
  | '"' => some '"'
  | '\\' => some '\\'
  | '/' => some '/'
  | 'b' => some '\x08'
  | 'f' => some '\x0c'
  | 'n' => some '\n'
  | 'r' => some '\r'
  | 't' => some '\t'
  | _ => none

/-- The scalar value of a `\uXXXX` escape; half of a surrogate pair is none. -/
def scalar (n : Nat) : Option Char :=
  if n < 0xD800 ∨ 0xDFFF < n then some (Char.ofNat n) else none

/-- The scalar value of two `\uXXXX` escapes that form a surrogate pair. -/
def pairValue (a b c d e f g h : Char) : Option Char := do
  let high ← hexValue4 a b c d
  let low ← hexValue4 e f g h
  if 0xD800 ≤ high ∧ high ≤ 0xDBFF ∧ 0xDC00 ≤ low ∧ low ≤ 0xDFFF then
    some (Char.ofNat (0x10000 + (high - 0xD800) * 1024 + (low - 0xDC00)))
  else none

/-- The rest of a JSON string.  `json.loads` also takes the escape of half a surrogate pair; the
string it makes of one is no text here, so that escape is refused. -/
def scanString : List Char → Option (List Char × List Char)
  | [] => none
  | '"' :: rest => some ([], rest)
  | '\\' :: 'u' :: a :: b :: c :: d :: rest =>
    match (hexValue4 a b c d).bind scalar with
    | some first => (scanString rest).map fun (text, after) => (first :: text, after)
    | none =>
      match rest with
      | '\\' :: 'u' :: e :: f :: g :: h :: rest =>
        match pairValue a b c d e f g h with
        | some both => (scanString rest).map fun (text, after) => (both :: text, after)
        | none => none
      | _ => none
  | '\\' :: escaped :: rest =>
    match unescape escaped with
    | some first => (scanString rest).map fun (text, after) => (first :: text, after)
    | none => none
  | c :: rest =>
    if c = '\\' ∨ c.toNat < 32 then none
    else (scanString rest).map fun (text, after) => (c :: text, after)

def ofWord (word : List Char) : Option Json :=
  if word = "null".toList then some .null
  else if word = "true".toList then some (.bool true)
  else if word = "false".toList then some (.bool false)
  else if chars : word.all JsonText.isWordChar = true then
    if number : JsonText.isNumber word = true then
      some (.num ⟨word, chars, number⟩)
    else none
  else none

mutual

def parseValue : Nat → List Char → Option (Json × List Char)
  | 0, _ => none
  | _ + 1, '"' :: rest => (scanString rest).map fun (text, after) => (.str (.ofList text), after)
  | fuel + 1, '[' :: rest =>
    match skipSpace rest with
    | ']' :: after => some (.arr [], after)
    | inside => (parseItems fuel inside).map fun (items, after) => (.arr items, after)
  | fuel + 1, '{' :: rest =>
    match skipSpace rest with
    | '}' :: after => some (.obj [], after)
    | inside =>
      (parseMembers fuel inside).map
        fun (members, after) => (.obj members, after)
  | _ + 1, text =>
    let (word, after) := text.span JsonText.isWordChar
    (ofWord word).map fun value => (value, after)

def parseItems : Nat → List Char → Option (List Json × List Char)
  | 0, _ => none
  | fuel + 1, text =>
    (parseValue fuel text).bind fun (item, after) =>
      match skipSpace after with
      | ',' :: rest =>
        (parseItems fuel (skipSpace rest)).map
          fun (items, after) => (item :: items, after)
      | ']' :: rest => some ([item], rest)
      | _ => none

def parseMembers : Nat → List Char → Option (List (String × Json) × List Char)
  | 0, _ => none
  | fuel + 1, '"' :: text =>
    (scanString text).bind fun (key, after) =>
      match skipSpace after with
      | ':' :: rest =>
        (parseValue fuel (skipSpace rest)).bind fun (value, after) =>
          match skipSpace after with
          | ',' :: rest =>
            (parseMembers fuel (skipSpace rest)).map
              fun (members, after) => ((.ofList key, value) :: members, after)
          | '}' :: rest => some ([(.ofList key, value)], rest)
          | _ => none
      | _ => none
  | _ + 1, _ => none

end

/-- The value of a whole text; `none` where the reader raises. -/
def loads (text : List Char) : Option Json :=
  match parseValue (text.length + 1) (skipSpace text) with
  | some (value, after) => if skipSpace after = [] then some value else none
  | none => none

end Json

end MemoryService.Foundation
