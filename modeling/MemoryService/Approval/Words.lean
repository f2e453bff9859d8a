import MemoryService.Approval.Expression

/-!
# The words of an expression

The next word is the longest beginning of what is left that is one, and spaces may stand before
it; the scanner that cuts words off is not read here.
-/

namespace MemoryService.Approval

open Foundation List

variable (text : List Char)

/-- `\d+`, and what its digits stand for. -/
def AreDigits (read : List Nat) : Prop := read ≠ [] ∧ text.map digitValue = read.map some

/-- `(?:\.\d+)?` -/
inductive IsFraction : List Char → List Nat → Prop
  | none : IsFraction [] []
  | point {text : List Char} {read : List Nat} : AreDigits text read → IsFraction ('.' :: text) read

/-- `[-+]?` -/
inductive IsSign : List Char → Int → Prop
  | none : IsSign [] 1
  | minus : IsSign ['-'] (-1)
  | plus : IsSign ['+'] 1

/-- `(?:[eE][-+]?\d+)?` -/
inductive IsExponent : List Char → Option Int → Prop
  | none : IsExponent [] none
  | power {e : Char} {mark text : List Char} {signed : Int} {read : List Nat} :
      e = 'e' ∨ e = 'E' → IsSign mark signed → AreDigits text read →
      IsExponent (e :: (mark ++ text)) (some (signed * natOf read))

/-- A numeral after its minus. -/
inductive IsNumeral (negative : Bool) : List Char → Number → Prop
  | parts {whole fraction exponent : List Char} {front part : List Nat} {power : Option Int} :
      AreDigits whole front → IsFraction fraction part → IsExponent exponent power →
      IsNumeral negative (whole ++ (fraction ++ exponent)) (numberOf negative front part power)

def operators : List (Text × Op) :=
  [("==".toList, .eq), ("!=".toList, .ne), ("<=".toList, .le), (">=".toList, .ge),
    ("<".toList, .lt), (">".toList, .gt)]

/-- A text is a word that stands for a token; a dotted path is one word. -/
inductive IsWord : List Char → Token → Prop
  -- a quote, and all that `json.loads` reads after one
  | string {chars text : List Char} : Json.scanString chars = some (text, []) →
      IsWord ('"' :: chars) (.lit (.str text))
  | number {text : List Char} {value : Number} : IsNumeral false text value →
      IsWord text (.lit (.num value))
  | negative {text : List Char} {value : Number} : IsNumeral true text value →
      IsWord ('-' :: text) (.lit (.num value))
  | op {text : List Char} {op : Op} : (text, op) ∈ operators → IsWord text (.op op)
  | punct {c : Char} {mark : Punct} : punct c = some mark → IsWord [c] (.punct mark)
  | path {names : List Text} : names ≠ [] → (∀ name ∈ names, isName name = true) →
      IsWord (intercalate ['.'] names) (word names)

/-- The words of a text, one after the other. -/
inductive Spells : List Char → List Token → Prop
  | nil {spaces : List Char} : (∀ c ∈ spaces, Rag.isSpace c = true) → Spells spaces []
  | cons {spaces first rest : List Char} {token : Token} {tokens : List Token} :
      (∀ c ∈ spaces, Rag.isSpace c = true) → IsWord first token →
      (∀ longer other, IsWord longer other → longer <+: first ++ rest →
        longer.length ≤ first.length) →
      Spells rest tokens → Spells (spaces ++ (first ++ rest)) (token :: tokens)

theorem scanString_takes :
    Reader.Takes Json.scanString fun front text => Json.scanString front = some (text, []) := by
  intro chars
  fun_induction Json.scanString chars with
  | case2 rest =>
    rintro text after ⟨⟩
    exact ⟨['"'], rfl, rfl⟩
  | case3 a b c d rest first isCode ih =>
    intro text after read
    obtain ⟨⟨inner, _⟩, innerRead, same⟩ := Option.map_eq_some_iff.mp read
    cases same
    obtain ⟨front, rfl, frontRead⟩ := ih innerRead
    exact ⟨_ :: _ :: _ :: _ :: _ :: _ :: front, rfl, by
      simp only [Json.scanString_unicode, isCode, frontRead, Option.map_some]⟩
  | case4 a b c d noCode e f g h rest both isPair ih =>
    intro text after read
    obtain ⟨⟨inner, _⟩, innerRead, same⟩ := Option.map_eq_some_iff.mp read
    cases same
    obtain ⟨front, rfl, frontRead⟩ := ih innerRead
    exact ⟨_ :: _ :: _ :: _ :: _ :: _ :: _ :: _ :: _ :: _ :: _ :: _ :: front, rfl, by
      simp only [Json.scanString_unicode, noCode, isPair, frontRead, Option.map_some]⟩
  | case7 e rest notCode c isLetter ih =>
    intro text after read
    obtain ⟨⟨inner, _⟩, innerRead, same⟩ := Option.map_eq_some_iff.mp read
    cases same
    obtain ⟨front, rfl, frontRead⟩ := ih innerRead
    have notUnicode : e ≠ 'u' := by
      rintro rfl
      cases isLetter
    exact ⟨_ :: _ :: front, rfl, by
      simp only [Json.scanString_escape notUnicode, isLetter, frontRead, Option.map_some]⟩
  | case10 c rest notQuote _ _ plain ih =>
    intro text after read
    obtain ⟨⟨inner, _⟩, innerRead, same⟩ := Option.map_eq_some_iff.mp read
    cases same
    obtain ⟨front, rfl, frontRead⟩ := ih innerRead
    rw [not_or] at plain
    have isRead := Json.scanString_plain notQuote plain.1 front
    rw [if_neg plain.2, frontRead] at isRead
    exact ⟨_ :: front, rfl, isRead⟩
  | _ => rintro text after ⟨⟩

variable {c : Char}

theorem digitValue_of_isSpace (isSpace : Rag.isSpace c = true) :
    digitValue c = none := by
  have isIn := List.contains_iff_mem.mp isSpace
  have noDigit : ∀ n ∈ [0x09, 0x0a, 0x0b, 0x0c, 0x0d, 0x1c, 0x1d, 0x1e, 0x1f, 0x20, 0x85, 0xa0,
      0x1680, 0x2000, 0x2001, 0x2002, 0x2003, 0x2004, 0x2005, 0x2006, 0x2007, 0x2008, 0x2009,
      0x200a, 0x2028, 0x2029, 0x202f, 0x205f, 0x3000],
      (decimalZeros.find? fun first => first ≤ n && n < first + 10) = none := by
    decide
  rw [digitValue, noDigit _ isIn]
  rfl

theorem of_isLetter (isLetter' : isLetter c = true) :
    digitValue c = none ∧ Rag.isSpace c = false ∧ c ≠ '"' ∧ c ≠ '-' ∧ c ≠ '.' := by
  have small : c.toNat < 128 := by
    have below (last : Char) (isLe : c ≤ last) : c.toNat ≤ last.toNat := isLe
    simp only [isLetter, Bool.or_eq_true, Bool.and_eq_true, decide_eq_true_eq] at isLetter'
    rcases isLetter' with (inRange | inRange) | rfl
    · exact (below 'z' inRange.2).trans_lt (by decide)
    · exact (below 'Z' inRange.2).trans_lt (by decide)
    · decide
  have every : ∀ n < 128, isLetter (Char.ofNat n) = true → digitValue (Char.ofNat n) = none ∧
      Rag.isSpace (Char.ofNat n) = false ∧ Char.ofNat n ≠ '"' ∧ Char.ofNat n ≠ '-' ∧
        Char.ofNat n ≠ '.' := by
    decide
  rw [← Char.ofNat_toNat c]
  exact every _ small (by rwa [Char.ofNat_toNat])

theorem of_digitValue (isDigit : (digitValue c).isSome) :
    Rag.isSpace c = false ∧ c ≠ '"' ∧ c ≠ '-' ∧ c ≠ '.' := by
  refine ⟨eq_false_of_ne_true fun isSpace => ?_, ?_, ?_, ?_⟩
  · rw [digitValue_of_isSpace isSpace] at isDigit
    cases isDigit
  all_goals
    rintro rfl
    cases isDigit

theorem AreDigits.starts {text : List Char} {read : List Nat} (areDigits : AreDigits text read) :
    ∃ c rest, text = c :: rest ∧ (digitValue c).isSome := by
  obtain ⟨areThere, areDigits⟩ := areDigits
  cases text with
  | nil => exact (areThere (map_eq_nil_iff.mp areDigits.symm)).elim
  | cons c text =>
    cases read with
    | nil => cases areDigits
    | cons digit read => exact ⟨c, text, rfl, by rw [(cons.inj areDigits).1]; rfl⟩

theorem digits_of_map_eq {text : List Char} {read : List Nat}
    (areDigits : text.map digitValue = read.map some) (rest : List Char) :
    digits (text ++ rest) = (read ++ (digits rest).1, (digits rest).2) := by
  induction text generalizing read with
  | nil =>
    obtain rfl := map_eq_nil_iff.mp areDigits.symm
    rfl
  | cons c text ih =>
    cases read with
    | nil => cases areDigits
    | cons digit read =>
      obtain ⟨isDigit, others⟩ := cons.inj areDigits
      rw [cons_append, digits, isDigit]
      simp only [ih others]
      rfl

theorem digits_takes : ∃ front, front ++ (digits text).2 = text ∧
    front.map digitValue = (digits text).1.map some := by
  induction text with
  | nil => exact ⟨[], rfl, rfl⟩
  | cons c rest ih =>
    obtain ⟨front, whole, areDigits⟩ := ih
    rw [digits]
    cases isDigit : digitValue c with
    | none => exact ⟨[], rfl, rfl⟩
    | some digit =>
      exact ⟨c :: front, congrArg (c :: ·) whole, by rw [map_cons, isDigit, areDigits, map_cons]⟩

theorem digits_le : (digits text).2.length ≤ text.length := by
  obtain ⟨front, whole, -⟩ := digits_takes text
  exact IsSuffix.length_le ⟨front, whole⟩

theorem fraction_takes : ∃ front, front ++ (fraction text).2 = text ∧
    IsFraction front (fraction text).1 := by
  cases text with
  | nil => exact ⟨[], rfl, .none⟩
  | cons c rest =>
    rw [fraction]
    split
    · next isPoint =>
        obtain ⟨rfl, areThere⟩ := isPoint
        obtain ⟨front, whole, areDigits⟩ := digits_takes rest
        exact ⟨'.' :: front, congrArg ('.' :: ·) whole, .point ⟨areThere, areDigits⟩⟩
    · exact ⟨[], rfl, .none⟩

theorem sign_takes : ∃ front, front ++ (sign text).2 = text ∧
    IsSign front (sign text).1 := by
  cases text with
  | nil => exact ⟨[], rfl, .none⟩
  | cons c rest =>
    rw [sign]
    split
    · next isMinus => exact ⟨['-'], by rw [isMinus]; rfl, .minus⟩
    · split
      · next isPlus => exact ⟨['+'], by rw [isPlus]; rfl, .plus⟩
      · exact ⟨[], rfl, .none⟩

theorem exponent_takes : ∃ front, front ++ (exponent text).2 = text ∧
    IsExponent front (exponent text).1 := by
  cases text with
  | nil => exact ⟨[], rfl, .none⟩
  | cons c rest =>
    rw [exponent]
    split
    · next isPower =>
        obtain ⟨isE, areThere⟩ := isPower
        obtain ⟨mark, afterMark, isSign⟩ := sign_takes rest
        obtain ⟨front, afterDigits, areDigits⟩ := digits_takes (sign rest).2
        refine ⟨c :: (mark ++ front), ?_, .power isE isSign ⟨areThere, areDigits⟩⟩
        rw [cons_append, append_assoc, afterDigits, afterMark]
    · exact ⟨[], rfl, .none⟩

theorem unsigned_takes (negative : Bool) :
    Reader.Takes (unsigned negative) (IsNumeral negative) := by
  intro text value after read
  rw [unsigned] at read
  obtain ⟨areThere, ⟨⟩⟩ := Option.ite_none_left_eq_some.mp read
  obtain ⟨whole, afterWhole, areDigits⟩ := digits_takes text
  obtain ⟨front, afterFraction, isFraction⟩ := fraction_takes (digits text).2
  obtain ⟨last, afterExponent, isExponent⟩ := exponent_takes (fraction (digits text).2).2
  refine ⟨whole ++ (front ++ last), ?_, .parts ⟨areThere, areDigits⟩ isFraction isExponent⟩
  rw [append_assoc, append_assoc, afterExponent, afterFraction, afterWhole]

theorem fraction_le : (fraction text).2.length ≤ text.length := by
  obtain ⟨front, whole, -⟩ := fraction_takes text
  exact IsSuffix.length_le ⟨front, whole⟩

theorem exponent_le : (exponent text).2.length ≤ text.length := by
  obtain ⟨front, whole, -⟩ := exponent_takes text
  exact IsSuffix.length_le ⟨front, whole⟩

theorem AreDigits.append {text : List Char} {read : List Nat} (areDigits : AreDigits text read)
    (rest : List Char) : digits (text ++ rest) = (read ++ (digits rest).1, (digits rest).2) ∧
      (digits (text ++ rest)).1 ≠ [] := by
  rw [digits_of_map_eq areDigits.2]
  exact ⟨rfl, append_ne_nil_of_left_ne_nil areDigits.1 _⟩

theorem IsFraction.append {text : List Char} {read : List Nat}
    (isFraction : IsFraction text read) (isThere : text ≠ []) (rest : List Char) :
    digits (text ++ rest) = ([], text ++ rest) ∧
      fraction (text ++ rest) = (read ++ (digits rest).1, (digits rest).2) := by
  cases isFraction with
  | none => exact (isThere rfl).elim
  | point areDigits =>
    obtain ⟨same, areThere⟩ := areDigits.append rest
    refine ⟨rfl, ?_⟩
    rw [cons_append, fraction, if_pos ⟨rfl, areThere⟩, same]

theorem IsSign.append {mark : List Char} {signed : Int} (isSign : IsSign mark signed)
    {text : List Char} {read : List Nat} (areDigits : AreDigits text read) (rest : List Char) :
    sign (mark ++ (text ++ rest)) = (signed, text ++ rest) := by
  cases isSign with
  | minus => rfl
  | plus => rfl
  | none =>
    obtain ⟨c, text, rfl, isDigit⟩ := areDigits.starts
    have := of_digitValue isDigit
    rw [nil_append, cons_append, sign, if_neg this.2.2.1, if_neg]
    rintro rfl
    cases isDigit

theorem IsExponent.append {text : List Char} {power : Option Int}
    (isExponent : IsExponent text power) (isThere : text ≠ []) (rest : List Char) :
    digits (text ++ rest) = ([], text ++ rest) ∧ fraction (text ++ rest) = ([], text ++ rest) ∧
      (exponent (text ++ rest)).2 = (digits rest).2 ∧
        (rest = [] → (exponent (text ++ rest)).1 = power) := by
  cases isExponent with
  | none => exact (isThere rfl).elim
  | @power e mark text signed read isE isSign areDigits =>
    obtain ⟨same, areThere⟩ := areDigits.append rest
    have signs := isSign.append areDigits rest
    rw [cons_append, append_assoc]
    refine ⟨?_, ?_, ?_, ?_⟩
    · rcases isE with rfl | rfl <;> rfl
    · rw [fraction, if_neg]
      rintro ⟨rfl, -⟩
      rcases isE with same | same <;> cases same
    · rw [exponent, signs, if_pos ⟨isE, areThere⟩, same]
    · rintro rfl
      rw [exponent, signs, if_pos ⟨isE, areThere⟩, same]
      simp [digits]

theorem IsNumeral.append {negative : Bool} {text : List Char} {value : Number}
    (isNumeral : IsNumeral negative text value) (more : List Char) :
    ∃ number after, unsigned negative (text ++ more) = some (number, after) ∧
      after.length ≤ more.length ∧ (more = [] → number = value) := by
  cases isNumeral with
  | @parts whole point mark front part power areDigits isFraction isExponent =>
    obtain ⟨digitsRead, areThere⟩ := areDigits.append (point ++ (mark ++ more))
    rw [append_assoc, append_assoc, unsigned]
    simp only [if_neg areThere, Option.some.injEq, Prod.mk.injEq]
    refine ⟨_, _, ⟨rfl, rfl⟩, ?_⟩
    rw [digitsRead]
    have shorter := digits_le more
    by_cases hasPoint : point = []
    · subst hasPoint
      cases isFraction
      by_cases hasMark : mark = []
      · subst hasMark
        cases isExponent
        refine ⟨(exponent_le _).trans ((fraction_le _).trans shorter), ?_⟩
        rintro rfl
        simp [digits, fraction, exponent]
      · obtain ⟨noDigits, noPoint, after, exact⟩ := isExponent.append hasMark more
        rw [nil_append, noDigits, noPoint, after]
        refine ⟨shorter, ?_⟩
        rintro rfl
        rw [exact rfl, append_nil]
    · obtain ⟨noDigits, pointRead⟩ := isFraction.append hasPoint (mark ++ more)
      rw [noDigits, pointRead]
      by_cases hasMark : mark = []
      · subst hasMark
        cases isExponent
        refine ⟨(exponent_le _).trans shorter, ?_⟩
        rintro rfl
        simp [digits, exponent]
      · obtain ⟨noDigits, noPoint, after, exact⟩ := isExponent.append hasMark more
        rw [noDigits, after]
        refine ⟨shorter, ?_⟩
        rintro rfl
        rw [exact rfl]
        simp only [append_nil]

theorem isName_append {name : Text} (isName' : isName name = true)
    (isNext : isNameChar c = true) : isName (name ++ [c]) = true := by
  cases name with
  | nil => cases isName'
  | cons first others =>
    rw [isName, Bool.and_eq_true] at isName'
    rw [cons_append, isName, isName'.1, all_append, isName'.2]
    simpa using isNext

theorem intercalate_append_last (names : List Text) (last : Text) (c : Char) :
    intercalate ['.'] (names ++ [last ++ [c]]) = intercalate ['.'] (names ++ [last]) ++ [c] := by
  induction names with
  | nil => simp
  | cons name names ih =>
    rw [cons_append, cons_append, intercalate_cons_of_ne_nil (by simp),
      intercalate_cons_of_ne_nil (by simp), ih]
    simp

theorem isNameChar_of_isName {name : Text} (isName' : isName name = true) :
    ∀ c ∈ name, isNameChar c = true := by
  cases name with
  | nil => nofun
  | cons first others =>
    rw [isName, Bool.and_eq_true, all_eq_true] at isName'
    rintro c (_ | ⟨_, member⟩)
    · rw [isNameChar, isName'.1, Bool.true_or]
    · exact isName'.2 c member

variable {names : List Text}

theorem isPathChar_of_mem_intercalate (areNames : ∀ name ∈ names, isName name = true) :
    ∀ c ∈ intercalate ['.'] names, isPathChar c = true := by
  induction names with
  | nil => nofun
  | cons name names ih =>
    obtain ⟨isFirst, areOthers⟩ := forall_mem_cons.mp areNames
    intro c member
    have ofName (member : c ∈ name) : isPathChar c = true := by
      rw [isPathChar, isNameChar_of_isName isFirst c member, Bool.true_or]
    cases names with
    | nil =>
      rw [intercalate_singleton] at member
      exact ofName member
    | cons other names =>
      rw [intercalate_cons_cons, mem_append, mem_append] at member
      rcases member with (member | member) | member
      · exact ofName member
      · obtain rfl := mem_singleton.mp member
        rfl
      · exact ih areOthers c member

theorem IsNumeral.starts {negative : Bool} {text : List Char} {value : Number}
    (isNumeral : IsNumeral negative text value) :
    ∃ c rest, text = c :: rest ∧ (digitValue c).isSome := by
  obtain ⟨areDigits, _, _⟩ := isNumeral
  obtain ⟨c, rest, rfl, isDigit⟩ := areDigits.starts
  exact ⟨c, _, rfl, isDigit⟩

theorem path_starts (areThere : names ≠ [])
    (areNames : ∀ name ∈ names, isName name = true) :
    ∃ c rest, intercalate ['.'] names = c :: rest ∧ isLetter c = true := by
  obtain ⟨name, names, rfl⟩ := exists_cons_of_ne_nil areThere
  cases name with
  | nil => cases areNames [] mem_cons_self
  | cons c name =>
    have isFirst := areNames _ mem_cons_self
    rw [isName, Bool.and_eq_true] at isFirst
    cases names with
    | nil => exact ⟨c, name, by simp, isFirst.1⟩
    | cons other names => exact ⟨c, _, by rw [intercalate_cons_cons]; rfl, isFirst.1⟩

theorem operator_cases : ∀ entry ∈ operators,
    (∃ c, entry.1 = [c, '='] ∧ doubled c = some entry.2) ∨
      ∃ c, entry.1 = [c] ∧ single c = some entry.2 := by
  simp only [operators, forall_mem_cons]
  exact ⟨.inl ⟨'=', rfl, rfl⟩, .inl ⟨'!', rfl, rfl⟩, .inl ⟨'<', rfl, rfl⟩, .inl ⟨'>', rfl, rfl⟩,
    .inr ⟨'<', rfl, rfl⟩, .inr ⟨'>', rfl, rfl⟩, nofun⟩

theorem doubled_reads {op : Op} (isDoubled : doubled c = some op) :
    (Rag.isSpace c = false ∧ c ≠ '.') ∧ ([c, '='], op) ∈ operators ∧
      ∀ rest, token (c :: '=' :: rest) = some (.op op, rest) := by
  rw [doubled.eq_def] at isDoubled
  split at isDoubled <;> cases isDoubled
  all_goals exact ⟨⟨rfl, nofun⟩, by simp [operators], fun _ => rfl⟩

theorem single_reads {op : Op} (isSingle : single c = some op) :
    (Rag.isSpace c = false ∧ c ≠ '.') ∧ ([c], op) ∈ operators ∧
      (∃ other, doubled c = some other) ∧
      ∀ rest, (∀ d ∈ rest.head?, d ≠ '=') → token (c :: rest) = some (.op op, rest) := by
  rw [single.eq_def] at isSingle
  split at isSingle <;> cases isSingle
  · refine ⟨⟨rfl, nofun⟩, by simp [operators], ⟨.le, rfl⟩, fun rest ends => ?_⟩
    cases rest with
    | nil => rfl
    | cons d rest =>
      change (scanOp '<' (d :: rest)).map _ = _
      rw [scanOp, if_neg (ends d rfl)]
      rfl
  · refine ⟨⟨rfl, nofun⟩, by simp [operators], ⟨.ge, rfl⟩, fun rest ends => ?_⟩
    cases rest with
    | nil => rfl
    | cons d rest =>
      change (scanOp '>' (d :: rest)).map _ = _
      rw [scanOp, if_neg (ends d rfl)]
      rfl

theorem punct_reads {mark : Punct} (isPunct : punct c = some mark) :
    (Rag.isSpace c = false ∧ c ≠ '.') ∧ ∀ rest, token (c :: rest) = some (.punct mark, rest) := by
  rw [punct.eq_def] at isPunct
  split at isPunct <;> cases isPunct
  all_goals exact ⟨⟨rfl, nofun⟩, fun _ => rfl⟩

theorem IsWord.starts {text : List Char} {token : Token} (isWord : IsWord text token) :
    ∃ c rest, text = c :: rest ∧ Rag.isSpace c = false ∧ c ≠ '.' := by
  cases isWord with
  | string _ => exact ⟨'"', _, rfl, rfl, nofun⟩
  | number isNumeral =>
    obtain ⟨c, rest, rfl, isDigit⟩ := isNumeral.starts
    have := of_digitValue isDigit
    exact ⟨c, rest, rfl, this.1, this.2.2.2⟩
  | negative _ => exact ⟨'-', _, rfl, rfl, nofun⟩
  | op isOp =>
    rcases operator_cases _ isOp with ⟨c, rfl, isDoubled⟩ | ⟨c, rfl, isSingle⟩
    · exact ⟨c, _, rfl, (doubled_reads isDoubled).1⟩
    · exact ⟨c, _, rfl, (single_reads isSingle).1⟩
  | punct isPunct => exact ⟨_, _, rfl, (punct_reads isPunct).1⟩
  | path areThere areNames =>
    obtain ⟨c, rest, same, isLetter⟩ := path_starts areThere areNames
    have := of_isLetter isLetter
    exact ⟨c, rest, same, this.2.1, this.2.2.2.2⟩

theorem token_number (isDigit : (digitValue c).isSome) (rest : List Char) :
    token (c :: rest) =
      (unsigned false (c :: rest)).map fun (number, after) => (.lit (.num number), after) := by
  have := of_digitValue isDigit
  rw [token, if_neg this.2.1, if_neg this.2.2.1, if_pos isDigit]

theorem token_name (isLetter' : isLetter c = true) (rest : List Char) :
    token (c :: rest) = scanName (c :: rest) := by
  have := of_isLetter isLetter'
  rw [token, if_neg this.2.2.1, if_neg this.2.2.2.1, this.1, if_neg nofun, if_pos isLetter']

theorem scanName_eq (areThere : names ≠ [])
    (areNames : ∀ name ∈ names, isName name = true) {rest : List Char}
    (ends : ∀ c ∈ rest.head?, isPathChar c = false) :
    scanName (intercalate ['.'] names ++ rest) = some (word names, rest) := by
  have noDot : ∀ name ∈ names, '.' ∉ name := fun name member isDot =>
    nomatch isNameChar_of_isName (areNames name member) _ isDot
  have areChars := isPathChar_of_mem_intercalate areNames
  have front : (intercalate ['.'] names ++ rest).takeWhile isPathChar =
      intercalate ['.'] names := by
    rw [takeWhile_append_of_pos areChars]
    cases rest with
    | nil => simp
    | cons c rest => rw [takeWhile_cons_of_neg (by rw [ends c rfl]; nofun), append_nil]
  have back : (intercalate ['.'] names ++ rest).dropWhile isPathChar = rest := by
    rw [dropWhile_append_of_pos areChars]
    cases rest with
    | nil => rfl
    | cons c rest => rw [dropWhile_cons_of_neg (by rw [ends c rfl]; nofun)]
  rw [scanName, front, back, splitOn_intercalate _ noDot areThere]
  exact if_pos (all_eq_true.mpr areNames)

theorem token_takes : Reader.Takes token IsWord := by
  intro text tok after read
  cases text with
  | nil => cases read
  | cons c rest =>
    rw [token] at read
    split at read
    · next isQuote =>
        obtain ⟨⟨chars, _⟩, charsRead, same⟩ := Option.map_eq_some_iff.mp read
        cases same
        obtain ⟨front, rfl, isString⟩ := scanString_takes charsRead
        exact ⟨'"' :: front, by rw [isQuote]; rfl, .string isString⟩
    split at read
    · next isMinus =>
        obtain ⟨⟨number, _⟩, numberRead, same⟩ := Option.map_eq_some_iff.mp read
        cases same
        obtain ⟨front, rfl, isNumeral⟩ := unsigned_takes true numberRead
        exact ⟨'-' :: front, by rw [isMinus]; rfl, .negative isNumeral⟩
    split at read
    · obtain ⟨⟨number, _⟩, numberRead, same⟩ := Option.map_eq_some_iff.mp read
      cases same
      obtain ⟨front, whole, isNumeral⟩ := unsigned_takes false numberRead
      exact ⟨front, whole, .number isNumeral⟩
    split at read
    · rw [scanName] at read
      obtain ⟨areNames, ⟨⟩⟩ := Option.ite_none_right_eq_some.mp read
      refine ⟨_, ?_, .path (splitOn_ne_nil _ _) (all_eq_true.mp areNames)⟩
      rw [intercalate_splitOn, takeWhile_append_dropWhile]
    split at read
    · next isPunct =>
        cases read
        exact ⟨[c], rfl, .punct isPunct⟩
    · obtain ⟨⟨op, _⟩, opRead, same⟩ := Option.map_eq_some_iff.mp read
      cases same
      have isSingle {rest : List Char} (read : (single c).map (·, rest) = some (op, after)) :
          rest = after ∧ IsWord [c] (.op op) := by
        obtain ⟨_, isSingle, same⟩ := Option.map_eq_some_iff.mp read
        cases same
        exact ⟨rfl, .op (single_reads isSingle).2.1⟩
      cases rest with
      | nil =>
        obtain ⟨rfl, isWord⟩ := isSingle opRead
        exact ⟨[c], rfl, isWord⟩
      | cons d rest =>
        rw [scanOp] at opRead
        split at opRead
        · next isEqual =>
            obtain ⟨_, isDoubled, same⟩ := Option.map_eq_some_iff.mp opRead
            cases same
            exact ⟨[c, '='], by rw [isEqual]; rfl, .op (doubled_reads isDoubled).2.1⟩
        · obtain ⟨rfl, isWord⟩ := isSingle opRead
          exact ⟨[c], rfl, isWord⟩

theorem IsWord.reaches {first : List Char} {tok other : Token} {more after : List Char}
    (isWord : IsWord first other) (read : token (first ++ more) = some (tok, after)) :
    after.length ≤ more.length := by
  cases isWord with
  | string isString =>
    rw [cons_append, token, if_pos rfl, Json.scanString_append isString] at read
    cases read
    exact le_rfl
  | number isNumeral =>
    obtain ⟨c, rest, rfl, isDigit⟩ := isNumeral.starts
    obtain ⟨_, _, isRead, shorter, -⟩ := isNumeral.append more
    rw [cons_append, token_number isDigit, ← cons_append, isRead] at read
    cases read
    exact shorter
  | negative isNumeral =>
    obtain ⟨_, _, isRead, shorter, -⟩ := isNumeral.append more
    rw [cons_append, token, if_neg nofun, if_pos rfl, isRead] at read
    cases read
    exact shorter
  | op isOp =>
    rcases operator_cases _ isOp with ⟨c, rfl, isDoubled⟩ | ⟨c, rfl, isSingle⟩
    · cases ((doubled_reads isDoubled).2.2 more).symm.trans read
      exact le_rfl
    · obtain ⟨-, -, ⟨longer, isDoubled⟩, isRead⟩ := single_reads isSingle
      by_cases isEqual : more.head? = some '='
      · obtain ⟨rest, rfl⟩ := head?_eq_some_iff.mp isEqual
        cases ((doubled_reads isDoubled).2.2 rest).symm.trans read
        exact Nat.le_succ _
      · cases (isRead more fun d isHead same => isEqual (same ▸ isHead)).symm.trans read
        exact le_rfl
  | punct isPunct =>
    cases ((punct_reads isPunct).2 more).symm.trans read
    exact le_rfl
  | path areThere areNames =>
    obtain ⟨c, rest, same, isLetter⟩ := path_starts areThere areNames
    rw [same, cons_append, token_name isLetter, ← cons_append, ← same, scanName] at read
    split at read
    · cases read
      rw [dropWhile_append_of_pos (isPathChar_of_mem_intercalate areNames)]
      exact (dropWhile_suffix _).length_le
    · cases read

/-- A word after which nothing longer is one is read as what it stands for. -/
theorem IsWord.read {first rest : List Char} {tok : Token} (isWord : IsWord first tok)
    (longest : ∀ longer other, IsWord longer other → longer <+: first ++ rest →
      longer.length ≤ first.length)
    (noDot : ∀ c ∈ rest.head?, c ≠ '.') : token (first ++ rest) = some (tok, rest) := by
  have noLonger {c : Char} (isNext : c ∈ rest.head?) (other : Token) :
      ¬IsWord (first ++ [c]) other := by
    intro isLonger
    obtain ⟨later, rfl⟩ := head?_eq_some_iff.mp isNext
    have shorter := longest _ _ isLonger (by simp)
    rw [length_append] at shorter
    exact Nat.not_succ_le_self _ shorter
  have sameNumber {negative : Bool} {text : List Char} {value : Number}
      (isNumeral : IsNumeral negative text value)
      (longest : ∀ longer other, IsNumeral negative longer other → longer <+: text ++ rest →
        longer.length ≤ text.length) :
      unsigned negative (text ++ rest) = some (value, rest) := by
    obtain ⟨number, after, isRead, shorter, -⟩ := isNumeral.append rest
    obtain ⟨front, whole, isFront⟩ := unsigned_takes negative isRead
    have := longest _ _ isFront ⟨after, whole.symm⟩
    obtain ⟨rfl, rfl⟩ : text = front ∧ rest = after := by
      refine append_inj whole ?_
      have := congrArg length whole
      simp only [length_append] at this
      omega
    obtain ⟨_, _, alone, -, same⟩ := isNumeral.append []
    obtain ⟨_, _, alone', -, same'⟩ := isFront.append []
    rw [alone] at alone'
    cases alone'
    rw [isRead, ← same rfl, same' rfl]
  cases isWord with
  | string isString =>
    rw [cons_append, token, if_pos rfl, Json.scanString_append isString]
    rfl
  | number isNumeral =>
    obtain ⟨c, later, starts, isDigit⟩ := isNumeral.starts
    have isRead := sameNumber isNumeral fun longer other isLonger => longest _ _ (.number isLonger)
    rw [starts, cons_append, token_number isDigit, ← cons_append, ← starts, isRead]
    rfl
  | negative isNumeral =>
    have isRead := sameNumber isNumeral fun longer other isLonger isPrefix => by
      simpa using longest _ _ (.negative isLonger) (by simpa using isPrefix)
    rw [cons_append, token, if_neg nofun, if_pos rfl, isRead]
    rfl
  | op isOp =>
    rcases operator_cases _ isOp with ⟨c, rfl, isDoubled⟩ | ⟨c, rfl, isSingle⟩
    · exact (doubled_reads isDoubled).2.2 rest
    · obtain ⟨-, -, ⟨longer, isDoubled⟩, isRead⟩ := single_reads isSingle
      refine isRead rest fun d isNext same => ?_
      subst same
      exact noLonger isNext _ (.op (doubled_reads isDoubled).2.1)
  | punct isPunct => exact (punct_reads isPunct).2 rest
  | @path names areThere areNames =>
    obtain ⟨c, later, starts, isLetter⟩ := path_starts areThere areNames
    have ends : ∀ c ∈ rest.head?, isPathChar c = false := by
      intro c isNext
      rw [isPathChar, Bool.or_eq_false_iff, decide_eq_false_iff_not]
      refine ⟨eq_false_of_ne_true fun isChar => ?_, noDot c isNext⟩
      obtain ⟨before, last, rfl⟩ := names.eq_nil_or_concat.resolve_left areThere
      refine noLonger isNext (word (before ++ [last ++ [c]])) ?_
      rw [concat_eq_append, ← intercalate_append_last]
      rw [concat_eq_append, forall_mem_append, forall_mem_singleton] at areNames
      refine .path (by simp) (forall_mem_append.mpr ⟨areNames.1, ?_⟩)
      exact forall_mem_singleton.mpr (isName_append areNames.2 isChar)
    rw [starts, cons_append, token_name isLetter, ← cons_append, ← starts]
    exact scanName_eq areThere areNames ends

theorem Spells.noDot {text : List Char} {read : List Token} (spells : Spells text read) :
    ∀ c ∈ text.head?, c ≠ '.' := by
  have noDot {spaces later : List Char} (areSpaces : ∀ c ∈ spaces, Rag.isSpace c = true)
      (others : ∀ c ∈ later.head?, c ≠ '.') : ∀ c ∈ (spaces ++ later).head?, c ≠ '.' := by
    cases spaces with
    | nil => exact others
    | cons c spaces =>
      rintro _ ⟨⟩ rfl
      cases areSpaces _ mem_cons_self
  cases spells with
  | nil areSpaces =>
    rw [← append_nil text]
    exact noDot areSpaces nofun
  | cons areSpaces isWord _ _ =>
    obtain ⟨c, rest, rfl, -, isThere⟩ := isWord.starts
    exact noDot areSpaces (by rintro _ ⟨⟩; exact isThere)

theorem items_spaces {spaces text : List Char} (areSpaces : ∀ c ∈ spaces, Rag.isSpace c = true)
    (rounds : Nat) : Reader.items Rag.isSpace token (rounds + 1) (spaces ++ text) =
      Reader.items Rag.isSpace token (rounds + 1) text := by
  induction spaces with
  | nil => rfl
  | cons c spaces ih =>
    obtain ⟨isSpace, others⟩ := forall_mem_cons.mp areSpaces
    rw [cons_append, Reader.items_skip isSpace, ih others]

theorem Spells.read {text : List Char} {read : List Token} (spells : Spells text read) :
    ∀ rounds, text.length < rounds → Reader.items Rag.isSpace token rounds text = some read := by
  induction spells with
  | @nil spaces areSpaces =>
    intro rounds enough
    obtain ⟨rounds, rfl⟩ := Nat.exists_eq_add_of_le' (Nat.zero_lt_of_lt enough)
    rw [← append_nil spaces, items_spaces areSpaces]
    rfl
  | @cons spaces first rest tok others areSpaces isWord longest others ih =>
    intro rounds enough
    have isRead := isWord.read longest others.noDot
    obtain ⟨c, later, rfl, notSpace, -⟩ := isWord.starts
    obtain ⟨rounds, rfl⟩ := Nat.exists_eq_add_of_le' (Nat.zero_lt_of_lt enough)
    rw [items_spaces areSpaces]
    refine Reader.items_cons notSpace isRead (ih rounds ?_)
    simp only [length_append, length_cons] at enough
    omega

theorem spells_of_items {rounds : Nat} : ∀ {text : List Char} {read : List Token},
    Reader.items Rag.isSpace token rounds text = some read → Spells text read := by
  induction rounds with
  | zero => nofun
  | succ rounds ih =>
    intro text read isRead
    rw [Reader.items] at isRead
    have split := takeWhile_append_dropWhile (p := Rag.isSpace) (l := text)
    have areSpaces : ∀ c ∈ text.takeWhile Rag.isSpace, Rag.isSpace c = true :=
      fun c member => mem_takeWhile_imp member
    cases left : text.dropWhile Rag.isSpace with
    | nil =>
      rw [left] at isRead split
      cases isRead
      rw [append_nil] at split
      rw [← split]
      exact .nil areSpaces
    | cons c rest =>
      simp only [left] at isRead
      obtain ⟨⟨tok, after⟩, firstRead, restRead⟩ := Option.bind_eq_some_iff.mp isRead
      obtain ⟨others, othersRead, rfl⟩ := Option.map_eq_some_iff.mp restRead
      obtain ⟨first, whole, isWord⟩ := token_takes firstRead
      rw [← split, left, whole]
      refine .cons areSpaces isWord (fun longer other isLonger isPrefix => ?_) (ih othersRead)
      obtain ⟨more, same⟩ := isPrefix
      rw [whole, ← same] at firstRead
      have shorter := isLonger.reaches firstRead
      have := congrArg length same
      simp only [length_append] at this
      omega

/-- The tokens of a text within the limit are what its words stand for. -/
theorem tokens_eq_some_iff {text : Text} {read : List Token} :
    tokens text = some read ↔ text.length ≤ maxExpressionChars ∧ Spells text read := by
  rw [tokens]
  split
  · next long => exact iff_of_false nofun fun fits => absurd fits.1 (Nat.not_le_of_lt long)
  · next short =>
      refine ⟨fun isRead => ⟨Nat.le_of_not_lt short, spells_of_items isRead⟩, fun spells => ?_⟩
      exact spells.2.read _ (Nat.lt_succ_self _)

end MemoryService.Approval
