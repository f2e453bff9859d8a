import MemoryService.Approval.Grammar

/-!
# Reading an expression inside a larger one

A closing parenthesis ends every token.
-/

namespace MemoryService.Approval

open Foundation Reader List Option

section Characters

variable {later : List Char} (text : List Char)

theorem digits_append :
    digits (text ++ ')' :: later) = ((digits text).1, (digits text).2 ++ ')' :: later) := by
  induction text with
  | nil => rfl
  | cons c rest ih =>
    rw [cons_append, digits, digits]
    cases digitValue c with
    | some digit => simp only [ih]
    | none => rfl

theorem fraction_append :
    fraction (text ++ ')' :: later) = ((fraction text).1, (fraction text).2 ++ ')' :: later) := by
  cases text with
  | nil => rfl
  | cons c rest =>
    rw [cons_append, fraction, fraction, digits_append]
    split <;> rfl

theorem sign_append :
    sign (text ++ ')' :: later) = ((sign text).1, (sign text).2 ++ ')' :: later) := by
  cases text with
  | nil => rfl
  | cons c rest =>
    rw [cons_append, sign, sign]
    split
    · rfl
    · split <;> rfl

theorem exponent_append :
    exponent (text ++ ')' :: later) = ((exponent text).1, (exponent text).2 ++ ')' :: later) := by
  cases text with
  | nil => rfl
  | cons c rest =>
    rw [cons_append, exponent, exponent, sign_append, digits_append]
    split <;> rfl

theorem unsigned_carries (negative : Bool) :
    Carries (')' :: later) (unsigned negative) (unsigned negative) := by
  intro text number after read
  simp only [unsigned] at read ⊢
  rw [digits_append, fraction_append, exponent_append]
  split at read
  · cases read
  · next found =>
      rw [if_neg found]
      cases read
      rfl

theorem scanName_carries : Carries (')' :: later) scanName scanName := by
  intro text name after read
  have stops : isPathChar ')' = false := by decide
  simp only [scanName] at read ⊢
  rw [takeWhile_append_of_stops stops, dropWhile_append_of_stops stops]
  split at read
  · next found =>
      rw [if_pos found]
      cases read
      rfl
  · cases read

theorem scanOp_carries (c : Char) : Carries (')' :: later) (scanOp c) (scanOp c) := by
  intro text op after read
  cases text with
  | nil =>
    obtain ⟨found, isSingle, same⟩ := map_eq_some_iff.mp read
    cases same
    exact map_eq_some_iff.mpr ⟨_, isSingle, rfl⟩
  | cons d rest =>
    rw [scanOp] at read
    rw [cons_append, scanOp]
    split at read
    · next isEqual =>
        obtain ⟨found, isDoubled, same⟩ := map_eq_some_iff.mp read
        cases same
        rw [if_pos isEqual, isDoubled]
        rfl
    · next notEqual =>
        obtain ⟨found, isSingle, same⟩ := map_eq_some_iff.mp read
        cases same
        rw [if_neg notEqual, isSingle]
        rfl

theorem scanString_carries : Carries (')' :: later) Json.scanString Json.scanString :=
  fun _ _ _ read => Json.scanString_append read (')' :: later)

theorem token_carries : Carries (')' :: later) token token := by
  intro text tok after read
  cases text with
  | nil => cases read
  | cons c rest =>
    rw [token] at read
    rw [cons_append, token]
    by_cases isString : c = '"'
    · rw [if_pos isString] at read ⊢
      exact scanString_carries.map (Token.lit ∘ Value.str) read
    rw [if_neg isString] at read ⊢
    by_cases isNegative : c = '-'
    · rw [if_pos isNegative] at read ⊢
      exact (unsigned_carries true).map (Token.lit ∘ Value.num) read
    rw [if_neg isNegative] at read ⊢
    by_cases isNumber : (digitValue c).isSome
    · rw [if_pos isNumber] at read ⊢
      exact (unsigned_carries false).map (Token.lit ∘ Value.num) read
    rw [if_neg isNumber] at read ⊢
    by_cases isWord : isLetter c
    · rw [if_pos isWord] at read ⊢
      exact scanName_carries read
    rw [if_neg isWord] at read ⊢
    cases isPunct : punct c with
    | some mark =>
      rw [isPunct] at read
      cases read
      rfl
    | none =>
      rw [isPunct] at read
      exact (scanOp_carries c).map Token.op read

end Characters

variable {rounds : Nat} {tree left right : Tree} {read : List Token} {text second : Text}

theorem tokens_of_items
    (fits : text.length ≤ maxExpressionChars) (enough : rounds ≤ text.length + 1)
    (isRead : items Rag.isSpace token rounds text = some read) : tokens text = some read := by
  rw [tokens, if_neg (Nat.not_lt.mpr fits)]
  exact items_mono enough isRead

theorem items_of_tokens (isRead : tokens text = some read) :
    items Rag.isSpace token (text.length + 1) text = some read := by
  rw [tokens] at isRead
  split at isRead
  · cases isRead
  · exact isRead

theorem length_le_of_parse (isParsed : parse text = some tree) :
    text.length ≤ maxExpressionChars := by
  obtain ⟨read, isRead, -⟩ := parse_eq_some_iff.mp isParsed
  rw [tokens] at isRead
  split at isRead
  · cases isRead
  · next fits => exact Nat.le_of_not_lt fits

theorem items_closed (isRead : tokens text = some read) :
    items Rag.isSpace token (text.length + 3) (text ++ ")".toList) =
      some (read ++ [.punct .closeParen]) :=
  items_append token_carries
    (show items Rag.isSpace token 2 ")".toList = some [.punct .closeParen] from rfl)
    (items_of_tokens isRead)

theorem items_opened (isRead : items Rag.isSpace token rounds text = some read) :
    items Rag.isSpace token (rounds + 1) ("(".toList ++ text) = some (.punct .openParen :: read) :=
  items_cons (show Rag.isSpace '(' = false from rfl)
    (show token ('(' :: text) = some (.punct .openParen, text) from rfl) isRead

theorem tokens_enclosed {first later : Text} {more : List Token} (isRead : tokens first = some read)
    (laterRead : items Rag.isSpace token rounds (')' :: later) = some more)
    (enough : rounds ≤ later.length + 1)
    (fits : first.length + later.length + 2 ≤ maxExpressionChars) :
    tokens ("(".toList ++ (first ++ ')' :: later)) =
      some (.punct .openParen :: (read ++ more)) := by
  have inOrder := items_opened (items_append token_carries laterRead (items_of_tokens isRead))
  refine tokens_of_items ?_ ?_ inOrder
  · change (first ++ ')' :: later).length + 1 ≤ _
    simp only [length_append, length_cons]
    omega
  · change _ ≤ (first ++ ')' :: later).length + 1 + 1
    simp only [length_append, length_cons]
    omega

/-- Two texts in parentheses, with the words of `between` read as `marks`. -/
theorem parse_joined {first : Text} (between : Text) (marks : List Token)
    (firstParsed : parse first = some left) (secondParsed : parse second = some right)
    (joined : ∀ {rounds text read}, items Rag.isSpace token (rounds + 1) text = some read →
      items Rag.isSpace token (rounds + 1 + marks.length) (between ++ text) = some (marks ++ read))
    (few : marks.length + 2 ≤ between.length)
    (sentence : ∀ {read other}, Sentence true .disjunction read left →
        Sentence true .disjunction other right →
      Sentence true .disjunction (.punct .openParen :: (read ++ .punct .closeParen ::
        (marks ++ .punct .openParen :: (other ++ [.punct .closeParen])))) tree)
    (fits : first.length + second.length + between.length + 4 ≤ maxExpressionChars) :
    parse ("(".toList ++ (first ++ ')' :: (between ++ ("(".toList ++ (second ++ ")".toList))))) =
      some tree := by
  obtain ⟨read, isRead, leftSentence⟩ := parse_eq_some_iff_sentence.mp firstParsed
  obtain ⟨other, otherRead, rightSentence⟩ := parse_eq_some_iff_sentence.mp secondParsed
  have isLong : (between ++ ("(".toList ++ (second ++ ")".toList))).length =
      between.length + second.length + 2 := by
    simp only [length_append]
    change between.length + (1 + (second.length + 1)) = _
    omega
  have laterRead := joined (items_opened (items_closed otherRead))
  have allRead := tokens_enclosed isRead
    (items_cons (show Rag.isSpace ')' = false from rfl)
      (show token (')' :: _) = some (.punct .closeParen, _) from rfl) laterRead)
    (by omega) (by omega)
  exact parse_of_sentence allRead (sentence leftSentence rightSentence)

theorem parse_or {first : Text}
    (firstParsed : parse first = some left) (secondParsed : parse second = some right)
    (fits : first.length + second.length + 8 ≤ maxExpressionChars) :
    parse ("(".toList ++ first ++ ") or (".toList ++ second ++ ")".toList) =
      some (.or left right) := by
  rw [append_assoc, append_assoc, append_assoc]
  refine parse_joined " or ".toList [.kw .or_] firstParsed secondParsed (fun isRead => ?_)
    (by decide) (fun leftSentence rightSentence => ?_) fits
  · exact (items_skip rfl).trans (items_cons (show Rag.isSpace 'o' = false from rfl)
      (show token ("or ".toList ++ _) = some (.kw .or_, ' ' :: _) from rfl)
      ((items_skip rfl).trans isRead))
  · have sentence := (Sentence.conjunction (.term (.closed leftSentence))).or
      (.term (.closed rightSentence))
    simp only [append_assoc, cons_append, nil_append] at sentence ⊢
    exact sentence

theorem parse_and_not {first : Text}
    (firstParsed : parse first = some left) (secondParsed : parse second = some right)
    (fits : first.length + second.length + 13 ≤ maxExpressionChars) :
    parse ("(".toList ++ first ++ ") and not (".toList ++ second ++ ")".toList) =
      some (.and left (.not right)) := by
  rw [append_assoc, append_assoc, append_assoc]
  refine parse_joined " and not ".toList [.kw .and_, .kw .not_] firstParsed secondParsed
    (fun isRead => ?_) (by decide) (fun leftSentence rightSentence => ?_) fits
  · have negated := items_cons (show Rag.isSpace 'n' = false from rfl)
      (show token ("not ".toList ++ _) = some (.kw .not_, ' ' :: _) from rfl)
      ((items_skip rfl).trans isRead)
    exact (items_skip rfl).trans (items_cons (show Rag.isSpace 'a' = false from rfl)
      (show token ("and not ".toList ++ _) = some (.kw .and_, " not ".toList ++ _) from rfl)
      ((items_skip rfl).trans negated))
  · have sentence := Sentence.conjunction ((Sentence.term (.closed leftSentence)).and
      (.not (.closed rightSentence)))
    simp only [append_assoc, cons_append, nil_append] at sentence ⊢
    exact sentence

def shapeIs (shape : Text) : Tree := .cmp .eq (.path [shapeName]) (.lit (.str shape))

theorem items_whenShape (shape : Text) :
    items Rag.isSpace token 4 (whenShape shape) =
      some [.name [shapeName], .op .eq, .lit (.str shape)] := by
  have quoted : token (Json.dumpsAscii shape) = some (.lit (.str shape), []) :=
    map_eq_some_iff.mpr ⟨(shape, []), Json.scanString_dumpsAscii shape [], rfl⟩
  have last : items Rag.isSpace token 2 (Json.dumpsAscii shape) = some [.lit (.str shape)] :=
    items_cons (show Rag.isSpace '"' = false from rfl) quoted rfl
  have compared : items Rag.isSpace token 3 ("== ".toList ++ Json.dumpsAscii shape) =
      some [.op .eq, .lit (.str shape)] :=
    items_cons (show Rag.isSpace '=' = false from rfl)
      (show token ("== ".toList ++ Json.dumpsAscii shape) =
        some (.op .eq, " ".toList ++ Json.dumpsAscii shape) from rfl)
      ((items_skip rfl).trans last)
  exact items_cons (show Rag.isSpace 's' = false from rfl)
    (show token (whenShape shape) =
      some (.name [shapeName], " == ".toList ++ Json.dumpsAscii shape) from rfl)
    ((items_skip rfl).trans compared)

theorem parse_whenShape {shape : Text} (fits : (whenShape shape).length ≤ maxExpressionChars) :
    parse (whenShape shape) = some (shapeIs shape) := by
  have enough : 4 ≤ (whenShape shape).length + 1 := by
    have : (shapeName ++ " == ".toList).length = 9 := rfl
    rw [whenShape, length_append]
    omega
  exact parse_eq_some_iff.mpr ⟨_, tokens_of_items fits enough (items_whenShape shape), rfl⟩

end MemoryService.Approval
