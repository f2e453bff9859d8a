import MemoryService.Foundation.JsonRoundTrip

/-!
# Strings written in ASCII

The writer's other form: what is not printable ASCII is a `\uXXXX` escape, and a character
past the first 65,536 is two of them, a surrogate pair.
-/

namespace MemoryService.Foundation.Json

open List

def hex4 (n : Nat) : List Char :=
  [hexDigit (n / 4096), hexDigit (n / 256 % 16), hexDigit (n / 16 % 16), hexDigit (n % 16)]

def escapeAscii (c : Char) : List Char :=
  if c.toNat < 127 then escapeChar c
  else if c.toNat < 0x10000 then '\\' :: 'u' :: hex4 c.toNat
  else
    '\\' :: 'u' :: (hex4 (0xD800 + (c.toNat - 0x10000) / 1024) ++
      '\\' :: 'u' :: hex4 (0xDC00 + (c.toNat - 0x10000) % 1024))

/-- `json.dumps` of a string. -/
def dumpsAscii (text : List Char) : List Char :=
  '"' :: (text.flatMap escapeAscii ++ ['"'])

theorem hexValue_hexDigit : ∀ n < 16, hexValue (hexDigit n) = some n := by
  decide

theorem hexValue4_hex4 {n : Nat} (small : n < 0x10000) :
    hexValue4 (hexDigit (n / 4096)) (hexDigit (n / 256 % 16)) (hexDigit (n / 16 % 16))
      (hexDigit (n % 16)) = some n := by
  rw [hexValue4, hexValue_hexDigit _ (by omega), hexValue_hexDigit _ (by omega),
    hexValue_hexDigit _ (by omega), hexValue_hexDigit _ (by omega)]
  have whole : ((n / 4096 * 16 + n / 256 % 16) * 16 + n / 16 % 16) * 16 + n % 16 = n := by
    omega
  exact congrArg some whole

theorem toNat_valid (c : Char) : c.toNat < 0xD800 ∨ 0xDFFF < c.toNat ∧ c.toNat < 0x110000 := c.valid

theorem scalar_toNat (c : Char) : scalar c.toNat = some c := by
  have notSurrogate : c.toNat < 0xD800 ∨ 0xDFFF < c.toNat := by
    have := toNat_valid c
    omega
  rw [scalar, if_pos notSurrogate, Char.ofNat_toNat]

theorem scanString_hex4 {c : Char} (small : c.toNat < 0x10000) (rest : List Char) :
    scanString ('\\' :: 'u' :: hex4 c.toNat ++ rest) =
      (scanString rest).map fun (text, after) => (c :: text, after) := by
  rw [hex4]
  simp only [cons_append, nil_append]
  rw [scanString_unicode, hexValue4_hex4 small]
  simp only [Option.bind_some, scalar_toNat]

theorem pairValue_hex4 {high low : Nat} (isHigh : 0xD800 ≤ high ∧ high ≤ 0xDBFF)
    (isLow : 0xDC00 ≤ low ∧ low ≤ 0xDFFF) :
    pairValue (hexDigit (high / 4096)) (hexDigit (high / 256 % 16))
        (hexDigit (high / 16 % 16)) (hexDigit (high % 16)) (hexDigit (low / 4096))
        (hexDigit (low / 256 % 16)) (hexDigit (low / 16 % 16)) (hexDigit (low % 16)) =
      some (Char.ofNat (0x10000 + (high - 0xD800) * 1024 + (low - 0xDC00))) := by
  rw [pairValue, hexValue4_hex4 (by omega), hexValue4_hex4 (by omega)]
  exact if_pos ⟨isHigh.1, isHigh.2, isLow.1, isLow.2⟩

theorem scanString_surrogates {high low : Nat} (isHigh : 0xD800 ≤ high ∧ high ≤ 0xDBFF)
    (isLow : 0xDC00 ≤ low ∧ low ≤ 0xDFFF) (rest : List Char) :
    scanString ('\\' :: 'u' :: (hex4 high ++ '\\' :: 'u' :: hex4 low) ++ rest) =
      (scanString rest).map fun (text, after) =>
        (Char.ofNat (0x10000 + (high - 0xD800) * 1024 + (low - 0xDC00)) :: text, after) := by
  have isHalf : scalar high = none := if_neg (by omega)
  rw [hex4, hex4]
  simp only [cons_append, nil_append]
  rw [scanString_unicode, hexValue4_hex4 (by omega)]
  simp only [Option.bind_some, isHalf, pairValue_hex4 isHigh isLow]

theorem scanString_pair {c : Char} (large : 0x10000 ≤ c.toNat) (rest : List Char) :
    scanString ('\\' :: 'u' :: (hex4 (0xD800 + (c.toNat - 0x10000) / 1024) ++
        '\\' :: 'u' :: hex4 (0xDC00 + (c.toNat - 0x10000) % 1024)) ++ rest) =
      (scanString rest).map fun (text, after) => (c :: text, after) := by
  have below : c.toNat < 0x110000 := by
    have := toNat_valid c
    omega
  have whole : 0x10000 + ((0xD800 + (c.toNat - 0x10000) / 1024) - 0xD800) * 1024 +
      ((0xDC00 + (c.toNat - 0x10000) % 1024) - 0xDC00) = c.toNat := by
    omega
  rw [scanString_surrogates (by omega) (by omega), whole, Char.ofNat_toNat]

theorem scanString_escapeAscii (c : Char) (rest : List Char) :
    scanString (escapeAscii c ++ rest) =
      (scanString rest).map fun (text, after) => (c :: text, after) := by
  rw [escapeAscii]
  split
  · exact scanString_escapeChar c rest
  · split
    · next small => exact scanString_hex4 small rest
    · next large => exact scanString_pair (Nat.le_of_not_lt large) rest

theorem scanString_dumpsAscii (text rest : List Char) :
    scanString (text.flatMap escapeAscii ++ '"' :: rest) = some (text, rest) := by
  induction text with
  | nil => rfl
  | cons c text ih =>
    rw [flatMap_cons, append_assoc, scanString_escapeAscii, ih]
    rfl

example : dumpsAscii "a\"é😀".toList = "\"a\\\"\\u00e9\\ud83d\\ude00\"".toList := by decide

end MemoryService.Foundation.Json
