import MemoryService.Foundation.Binary64
import Mathlib.Data.List.Sort
import MemoryService.Foundation.Descent
import MemoryService.Foundation.JsonAscii
import MemoryService.Rag.Indexer

/-!
# The values of a call's arguments

The arguments of a call are JSON as Python decodes it, infinities and not-a-number included. An
expression compares them with Python's operators.
-/

namespace MemoryService.Approval

open Foundation

abbrev Text := List Char

def Text.occursIn (part text : Text) : Bool := text.tails.any part.isPrefixOf

/-- An `int` or a `float`, as the number it stands for. -/
inductive Number where
  | finite (value : Rat)
  | infinite (negative : Bool)
  | nan

namespace Number

def double (x : Rat) : Number :=
  if |x| < 1 / 2 ^ 1022 then
    -- below the normal range the doubles are the multiples of the least of them
    let least := Binary64.divRound (x.num.natAbs * 2 ^ 1074) x.den
    .finite (if x < 0 then -mkRat least (2 ^ 1074) else mkRat least (2 ^ 1074))
  else if 2 ^ 1024 ≤ |Binary64.round x| then .infinite (x < 0)
  else .finite (Binary64.round x)

def eq : Number → Number → Bool
  | .finite a, .finite b => a = b
  | .infinite a, .infinite b => a = b
  | _, _ => false

def lt : Number → Number → Bool
  | .finite a, .finite b => a < b
  | .finite _, .infinite negative => !negative
  | .infinite negative, .finite _ => negative
  | .infinite a, .infinite b => a && !b
  | _, _ => false

end Number

inductive Value where
  | null
  | bool (value : Bool)
  | num (value : Number)
  | str (value : Text)
  | list (items : List Value)
  /-- a dict; its keys are distinct -/
  | obj (members : List (Text × Value))
  /-- what a path that is not there stands for -/
  | missing

/-- The arguments of a call, by name. -/
abbrev Members := List (Text × Value)

/-- The operators of a comparison. -/
inductive Op where
  | eq
  | ne
  | lt
  | le
  | gt
  | ge
  | in_

namespace Op

/-- What an ordering operator says of two values neither of which is unordered. -/
def ordering (isLess isMore : Bool) : Op → Bool
  | .lt => isLess
  | .le => !isMore
  | .gt => isMore
  | .ge => !isLess
  | _ => false

def ofNumbers (a b : Number) : Op → Bool
  | .lt => a.lt b
  | .le => a.lt b || a.eq b
  | .gt => b.lt a
  | .ge => b.lt a || b.eq a
  | _ => false

end Op

namespace Value

/-- A number; a `bool` is one. -/
def numeric : Value → Option Number
  | .num value => some value
  | .bool value => some (.finite (if value then 1 else 0))
  | _ => none

def isNan : Value → Bool
  | .num .nan => true
  | _ => false

mutual

/-- `left == right`. -/
def equal : Value → Value → Bool
  | .null, .null => true
  | .str a, .str b => a = b
  | .list a, .list b => equalItems a b
  | .obj a, .obj b => a.length = b.length && equalMembers a b
  | .missing, .missing => true
  | left, right =>
    match left.numeric, right.numeric with
    | some a, some b => a.eq b
    | _, _ => false

def equalItems : List Value → List Value → Bool
  | [], [] => true
  | a :: left, b :: right => (a.isNan && b.isNan || equal a b) && equalItems left right
  | _, _ => false

def equalMembers : List (Text × Value) → List (Text × Value) → Bool
  | [], _ => true
  | (key, a) :: left, right =>
    (match right.lookup key with
      | some b => a.isNan && b.isNan || equal a b
      | none => false) && equalMembers left right

end

def same (left right : Value) : Bool := left.isNan && right.isNan || equal left right

mutual

/-- `left < right` and its like; `none` where that raises. -/
def ordered (op : Op) : Value → Value → Option Bool
  | .str a, .str b => some (op.ordering (a < b) (b < a))
  | .list a, .list b => orderedItems op a b
  | left, right =>
    match left.numeric, right.numeric with
    | some a, some b => some (op.ofNumbers a b)
    | _, _ => none

def orderedItems (op : Op) : List Value → List Value → Option Bool
  | [], [] => some (op.ordering false false)
  | [], _ :: _ => some (op.ordering true false)
  | _ :: _, [] => some (op.ordering false true)
  | a :: left, b :: right => if a.same b then orderedItems op left right else ordered op a b

end

/-- `left in right`; false where that raises. -/
def within (left : Value) : Value → Bool
  | .str text =>
    match left with
    | .str part => Text.occursIn part text
    | _ => false
  | .list items => items.any left.same
  | .obj members =>
    match left with
    | .str key => (members.lookup key).isSome
    | _ => false
  | _ => false

end Value

/-- `_compare`: nothing is said of what is not there, or of values that do not compare. -/
def compare (op : Op) (left right : Value) : Bool :=
  match left, right with
  | .missing, _ => false
  | _, .missing => false
  | left, right =>
    match op with
    | .eq => left.equal right
    | .ne => !left.equal right
    | .in_ => left.within right
    | op => (Value.ordered op left right).getD false

def intText (n : Int) : Text :=
  if n < 0 then '-' :: Nat.toDigits 10 n.natAbs else Nat.toDigits 10 n.natAbs

section

-- `math.floor(math.log10(value))` of a positive number
variable (floorLog10 : Rat → Int)

def valueKind : Value → Option Text
  | .null => some "null".toList
  | .bool value => some ("bool:".toList ++ (if value then "true" else "false").toList)
  | .num (.finite value) =>
    some ("num:1e".toList ++ intText (if value = 0 then 0 else floorLog10 |value|))
  | .num _ => none
  | .str _ => some "str".toList
  | .list _ => some "list".toList
  | _ => some "obj".toList

def argShape (args : Members) : Option Text :=
  ((List.insertionSort (fun (a b : Text × Value) => ¬b.1 < a.1) args).mapM
    fun (name, value) => (valueKind floorLog10 value).map (name ++ ':' :: ·)).map
      (List.intercalate [','])

end

/-!
## Approval expressions

The text of an expression is cut into tokens, the tokens are read into a tree by recursive descent,
and the tree is evaluated on the arguments of a call.
-/

/-- The longest expression a catalog entry may carry. -/
def maxExpressionChars : Nat := 2000

/-- The name that evaluates to the call's argument shape. -/
def shapeName : Text := "shape".toList

/-- The expression true exactly for calls of this argument shape. -/
def whenShape (shape : Text) : Text := shapeName ++ " == ".toList ++ Json.dumpsAscii shape

inductive Keyword where
  | and_
  | or_
  | not_
  | in_

inductive Punct where
  | openParen
  | closeParen
  | openBracket
  | closeBracket
  | comma

inductive Token where
  | lit (value : Value)
  | kw (word : Keyword)
  | op (op : Op)
  | punct (mark : Punct)
  | name (path : List Text)

def decimalZeros : List Nat :=
  [0x30, 0x660, 0x6f0, 0x7c0, 0x966, 0x9e6, 0xa66, 0xae6, 0xb66, 0xbe6, 0xc66, 0xce6, 0xd66,
    0xde6, 0xe50, 0xed0, 0xf20, 0x1040, 0x1090, 0x17e0, 0x1810, 0x1946, 0x19d0, 0x1a80, 0x1a90,
    0x1b50, 0x1bb0, 0x1c40, 0x1c50, 0xa620, 0xa8d0, 0xa900, 0xa9d0, 0xa9f0, 0xaa50, 0xabf0,
    0xff10, 0x104a0, 0x10d30, 0x11066, 0x110f0, 0x11136, 0x111d0, 0x112f0, 0x11450, 0x114d0,
    0x11650, 0x116c0, 0x11730, 0x118e0, 0x11950, 0x11c50, 0x11d50, 0x11da0, 0x11f50, 0x16a60,
    0x16ac0, 0x16b50, 0x1d7ce, 0x1d7d8, 0x1d7e2, 0x1d7ec, 0x1d7f6, 0x1e140, 0x1e2f0, 0x1e4f0,
    0x1e950, 0x1fbf0]

variable (c : Char)

/-- What a decimal digit, `\d`, stands for. -/
def digitValue : Option Nat :=
  (decimalZeros.find? fun first => first ≤ c.toNat && c.toNat < first + 10).map (c.toNat - ·)

def digits : List Char → List Nat × List Char
  | [] => ([], [])
  | c :: rest =>
    match digitValue c with
    | some digit => (digit :: (digits rest).1, (digits rest).2)
    | none => ([], c :: rest)

def natOf (read : List Nat) : Nat := read.foldl (fun n digit => 10 * n + digit) 0

/-- `(?:\.\d+)?` -/
def fraction : List Char → List Nat × List Char
  | [] => ([], [])
  | c :: rest =>
    if c = '.' ∧ (digits rest).1 ≠ [] then digits rest else ([], c :: rest)

/-- `[-+]?` -/
def sign : List Char → Int × List Char
  | [] => (1, [])
  | c :: rest => if c = '-' then (-1, rest) else if c = '+' then (1, rest) else (1, c :: rest)

/-- `(?:[eE][-+]?\d+)?` -/
def exponent : List Char → Option Int × List Char
  | [] => (none, [])
  | c :: rest =>
    if (c = 'e' ∨ c = 'E') ∧ (digits (sign rest).2).1 ≠ [] then
      (some ((sign rest).1 * natOf (digits (sign rest).2).1), (digits (sign rest).2).2)
    else (none, c :: rest)

/-- An `int` where there is neither a point nor an exponent, a `float` else. -/
def numberOf (negative : Bool) (whole part : List Nat) (power : Option Int) : Number :=
  let signed (x : Rat) : Rat := if negative then -x else x
  if part = [] ∧ power = none then .finite (signed (natOf whole))
  else .double (signed (natOf (whole ++ part) * (10 : Rat) ^ (power.getD 0 - part.length)))

/-- `-?\d+(?:\.\d+)?(?:[eE][-+]?\d+)?`, after the minus. -/
def unsigned (negative : Bool) (text : List Char) : Option (Number × List Char) :=
  let whole := digits text
  let part := fraction whole.2
  let power := exponent part.2
  if whole.1 = [] then none else some (numberOf negative whole.1 part.1 power.1, power.2)

def isLetter : Bool := 'a' ≤ c && c ≤ 'z' || 'A' ≤ c && c ≤ 'Z' || c = '_'

def isNameChar : Bool := isLetter c || '0' ≤ c && c ≤ '9'

def isName : Text → Bool
  | [] => false
  | c :: rest => isLetter c && rest.all isNameChar

def isPathChar : Bool := isNameChar c || c = '.'

def word (path : List Text) : Token :=
  if path = ["and".toList] then .kw .and_
  else if path = ["or".toList] then .kw .or_
  else if path = ["not".toList] then .kw .not_
  else if path = ["in".toList] then .kw .in_
  else if path = ["true".toList] then .lit (.bool true)
  else if path = ["false".toList] then .lit (.bool false)
  else .name path

def scanName (text : List Char) : Option (Token × List Char) :=
  let path := (text.takeWhile isPathChar).splitOn '.'
  -- no token starts with a dot, so one that no name follows is refused either way
  if path.all isName then some (word path, text.dropWhile isPathChar) else none

def punct : Char → Option Punct
  | '(' => some .openParen
  | ')' => some .closeParen
  | '[' => some .openBracket
  | ']' => some .closeBracket
  | ',' => some .comma
  | _ => none

def doubled : Char → Option Op
  | '=' => some .eq
  | '!' => some .ne
  | '<' => some .le
  | '>' => some .ge
  | _ => none

def single : Char → Option Op
  | '<' => some .lt
  | '>' => some .gt
  | _ => none

/-- `==|!=|<=|>=|<|>`, after its first character. -/
def scanOp : Reader Char Op
  | [] => (single c).map (·, [])
  | d :: rest =>
    if d = '=' then (doubled c).map (·, rest) else (single c).map (·, d :: rest)

def token : Reader Char Token
  | [] => none
  | c :: rest =>
    if c = '"' then
      (Json.scanString rest).map fun (text, after) => (.lit (.str text), after)
    else if c = '-' then
      (unsigned true rest).map fun (number, after) => (.lit (.num number), after)
    else if (digitValue c).isSome then
      (unsigned false (c :: rest)).map fun (number, after) => (.lit (.num number), after)
    else if isLetter c then scanName (c :: rest)
    else
      match punct c with
      | some mark => some (.punct mark, rest)
      | none => (scanOp c rest).map fun (op, after) => (.op op, after)

/-- `_tokens`; `none` where the text is too long or has something else in it. -/
def tokens (text : Text) : Option (List Token) :=
  if maxExpressionChars < text.length then none
  else Reader.items Rag.isSpace token (text.length + 1) text

inductive Operand where
  | lit (value : Value)
  | path (names : List Text)
  | list (items : List Operand)

inductive Tree where
  | or (left right : Tree)
  | and (left right : Tree)
  | not (inner : Tree)
  | cmp (op : Op) (left right : Operand)
  | lit (value : Bool)

def Token.isOr : Token → Bool
  | .kw .or_ => true
  | _ => false

def Token.isAnd : Token → Bool
  | .kw .and_ => true
  | _ => false

def listed (operand : Reader Token Operand) : Nat → Reader Token (List Operand)
  | 0, _ => none
  | _ + 1, .punct .closeBracket :: rest => some ([], rest)
  | rounds + 1, tokens =>
    (operand tokens).bind fun (first, after) =>
      match after with
      | .punct .comma :: rest => (listed operand rounds rest).map (Prod.map (first :: ·) id)
      | .punct .closeBracket :: rest => some ([first], rest)
      | _ => none

/-- `_operand`, of lists nested no deeper than the bound. -/
def operand : Nat → Reader Token Operand
  | 0, _ => none
  | _ + 1, .lit value :: rest => some (.lit value, rest)
  | _ + 1, .name path :: rest => some (.path path, rest)
  | depth + 1, .punct .openBracket :: rest =>
    (listed (operand depth) (rest.length + 1) rest).map (Prod.map .list id)
  | _ + 1, _ => none

def compared (left : Operand) : Reader Token Tree
  | .op op :: rest => (operand rest.length rest).map (Prod.map (.cmp op left) id)
  | .kw .in_ :: rest => (operand rest.length rest).map (Prod.map (.cmp .in_ left) id)
  | _ => none

def comparison : Reader Token Tree := fun tokens =>
  (operand tokens.length tokens).bind fun (left, after) => compared left after

/-- What may follow a bare `true` or `false`. -/
def endsBare : List Token → Bool
  | [] => true
  | .kw .and_ :: _ => true
  | .kw .or_ :: _ => true
  | .punct .closeParen :: _ => true
  | _ => false

/-- `_or`, over what `_not` reads. -/
def disjunction (conjunct : Reader Token Tree) : Reader Token Tree :=
  Reader.separated Token.isOr .or (Reader.separated Token.isAnd .and conjunct)

def closed : Option (Tree × List Token) → Option (Tree × List Token)
  | some (inner, .punct .closeParen :: after) => some (inner, after)
  | _ => none

/-- `_not`, of negations and parentheses nested no deeper than the bound. -/
def conjunct : Nat → Reader Token Tree
  | 0, _ => none
  | depth + 1, .kw .not_ :: rest => (conjunct depth rest).map (Prod.map .not id)
  | depth + 1, .punct .openParen :: rest => closed (disjunction (conjunct depth) rest)
  | _ + 1, .lit (.bool value) :: rest =>
    if endsBare rest then some (.lit value, rest) else comparison (.lit (.bool value) :: rest)
  | _ + 1, tokens => comparison tokens

def whole : Option (Tree × List Token) → Option Tree
  | some (tree, []) => some tree
  | _ => none

/-- The expression's tree; `none` where it is not one. -/
def parse (expression : Text) : Option Tree :=
  (tokens expression).bind fun read => whole (disjunction (conjunct read.length) read)

def walk : Value → List Text → Value
  | current, [] => current
  | .obj members, part :: path =>
    match members.lookup part with
    | some value => walk value path
    | none => .missing
  | _, _ :: _ => .missing

section

variable (floorLog10 : Rat → Int) (args : Members)

mutual

/-- `_value`; `none` where the shape of the arguments is asked for and raises. -/
def value : Operand → Option Value
  | .lit value => some value
  | .list items => (values items).map .list
  | .path names =>
    if names = [shapeName] then (argShape floorLog10 args).map .str
    else some (walk (.obj args) names)

def values : List Operand → Option (List Value)
  | [] => some []
  | item :: items => (value item).bind fun first => (values items).map (first :: ·)

end

/-- `_eval`; what stands on the right of a decided left side is not looked at. -/
def eval : Tree → Option Bool
  | .or left right =>
    match eval left with
    | some true => some true
    | some false => eval right
    | none => none
  | .and left right =>
    match eval left with
    | some true => eval right
    | some false => some false
    | none => none
  | .not inner => (eval inner).map (!·)
  | .cmp op left right =>
    (value floorLog10 args left).bind fun a =>
      (value floorLog10 args right).map fun b => compare op a b
  | .lit value => some value

/-- Whether a call with these arguments must be approved; `none` where that raises. -/
def evaluate (expression : Text) : Option Bool := (parse expression).bind (eval floorLog10 args)

end

end MemoryService.Approval
