import MemoryService.Foundation.Json

/-!
# Reading back what was written

Strings first, character by character; then words, whose end is the first
character no word is made of; then values, by recursion on the value.
-/

namespace MemoryService.Foundation.Json

open List Option

theorem scanString_unicode (a b c d : Char) (rest : List Char) :
    scanString ('\\' :: 'u' :: a :: b :: c :: d :: rest) =
      match (hexValue4 a b c d).bind scalar with
      | some first => (scanString rest).map fun (text, after) => (first :: text, after)
      | none =>
        match rest with
        | '\\' :: 'u' :: e :: f :: g :: h :: rest =>
          match pairValue a b c d e f g h with
          | some both => (scanString rest).map fun (text, after) => (both :: text, after)
          | none => none
        | _ => none := by
  rw [scanString.eq_def]
  rfl

theorem scanString_escape {escaped : Char} (notUnicode : escaped ≠ 'u') (rest : List Char) :
    scanString ('\\' :: escaped :: rest) =
      match unescape escaped with
      | some first => (scanString rest).map fun (text, after) => (first :: text, after)
      | none => none := by
  rw [scanString.eq_def]
  split
  case h_4 same =>
    obtain ⟨rfl, rfl⟩ := List.cons.inj (List.cons.inj same).2
    rfl
  case h_5 c tail notQuote _ notEscape same =>
    obtain ⟨rfl, rfl⟩ := List.cons.inj same
    exact absurd rfl (notEscape escaped rest rfl)
  all_goals simp_all

variable {c : Char} {text after rest inside : List Char}

theorem scanString_plain (notQuote : c ≠ '"') (notEscape : c ≠ '\\') (rest : List Char) :
    scanString (c :: rest) =
      if c.toNat < 32 then none
      else (scanString rest).map fun (text, after) => (c :: text, after) := by
  rw [scanString.eq_def]
  split <;> simp_all

theorem hexValue4_control :
    ∀ n < 32,
      (hexValue4 '0' '0' (hexDigit (n / 16)) (hexDigit (n % 16))).bind scalar =
        some (Char.ofNat n) := by
  decide

theorem scanString_escapeChar (c : Char) (rest : List Char) :
    scanString (escapeChar c ++ rest) =
      (scanString rest).map fun (text, after) => (c :: text, after) := by
  unfold escapeChar
  by_cases quote : c = '"'
  · subst c
    rfl
  by_cases backslash : c = '\\'
  · subst c
    rfl
  by_cases newline : c = '\n'
  · subst c
    rfl
  by_cases carriage : c = '\r'
  · subst c
    rfl
  by_cases tab : c = '\t'
  · subst c
    rfl
  by_cases formFeed : c = '\x0c'
  · subst c
    rfl
  by_cases backspace : c = '\x08'
  · subst c
    rfl
  simp only [quote, backslash, newline, carriage, tab, formFeed, backspace, if_false]
  by_cases control : c.toNat < 32
  · rw [if_pos control, cons_append, cons_append, cons_append,
      cons_append, cons_append, cons_append, scanString_unicode,
      hexValue4_control c.toNat control, Char.ofNat_toNat]
    rfl
  · rw [if_neg control, cons_append, scanString_plain quote backslash, if_neg control]
    rfl

theorem scanString_escapeChars (text rest : List Char) :
    scanString (escapeChars text ++ '"' :: rest) = some (text, rest) := by
  induction text with
  | nil => rfl
  | cons c text ih =>
    rw [escapeChars, flatMap_cons, append_assoc, scanString_escapeChar]
    change (scanString (escapeChars text ++ '"' :: rest)).map _ = _
    rw [ih]
    rfl

theorem scanString_append {chars : List Char} (read : scanString text = some (chars, after))
    (extra : List Char) :
    scanString (text ++ extra) = some (chars, after ++ extra) := by
  fun_induction scanString text generalizing chars after with
  | case1 => cases read
  | case2 rest =>
    cases read
    rfl
  | case3 a b c d rest first value ih =>
    simp only [map_eq_some_iff, Prod.mk.injEq] at read
    obtain ⟨⟨innerText, innerAfter⟩, inner, rfl, rfl⟩ := read
    simp only [cons_append, scanString_unicode, value, ih inner, map_some]
  | case4 a b c d noScalar e f g h rest both value ih =>
    simp only [map_eq_some_iff, Prod.mk.injEq] at read
    obtain ⟨⟨innerText, innerAfter⟩, inner, rfl, rfl⟩ := read
    simp only [cons_append]
    rw [scanString_unicode]
    simp only [noScalar, value, ih inner, map_some]
  | case5 => cases read
  | case6 => cases read
  | case7 escaped rest notUnicode first value ih =>
    simp only [map_eq_some_iff, Prod.mk.injEq] at read
    obtain ⟨⟨innerText, innerAfter⟩, inner, rfl, rfl⟩ := read
    have notLetterU : escaped ≠ 'u' := by
      rintro rfl
      cases value
    simp only [cons_append, scanString_escape notLetterU, value, ih inner, map_some]
  | case8 => cases read
  | case9 => cases read
  | case10 c rest notQuote notEscape notLast plain ih =>
    simp only [map_eq_some_iff, Prod.mk.injEq] at read
    obtain ⟨⟨innerText, innerAfter⟩, inner, rfl, rfl⟩ := read
    obtain ⟨notBackslash, notControl⟩ := not_or.mp plain
    rw [cons_append, scanString_plain notQuote notBackslash, if_neg notControl, ih inner]
    rfl

def WordEnds (rest : List Char) : Prop := ∀ c ∈ rest.head?, JsonText.isWordChar c = false

theorem wordEnds_nil : WordEnds [] := by
  intro c member
  cases member

theorem wordEnds_cons (ends : JsonText.isWordChar c = false) : WordEnds (c :: rest) := by
  intro first member
  cases member
  exact ends

theorem span_word {word : List Char}
    (chars : word.all JsonText.isWordChar = true) (ends : WordEnds rest) :
    (word ++ rest).span JsonText.isWordChar = (word, rest) := by
  have each : ∀ c ∈ word, JsonText.isWordChar c = true := all_eq_true.mp chars
  rw [span_eq_takeWhile_dropWhile, takeWhile_append_of_pos each, dropWhile_append_of_pos each]
  cases rest with
  | nil => rw [takeWhile_nil, dropWhile_nil, append_nil]
  | cons c rest =>
    have notWord : ¬JsonText.isWordChar c = true := by
      rw [ends c rfl]
      decide
    rw [takeWhile_cons_of_neg notWord, dropWhile_cons_of_neg notWord, append_nil]

theorem span_append (follows : (text.span JsonText.isWordChar).2 ≠ []) (extra : List Char) :
    (text ++ extra).span JsonText.isWordChar =
      ((text.span JsonText.isWordChar).1, (text.span JsonText.isWordChar).2 ++ extra) := by
  rw [span_eq_takeWhile_dropWhile] at follows ⊢
  rw [span_eq_takeWhile_dropWhile]
  induction text with
  | nil => exact absurd rfl follows
  | cons c text ih =>
    rw [cons_append]
    by_cases wordChar : JsonText.isWordChar c = true
    · rw [dropWhile_cons_of_pos wordChar] at follows
      have later := ih follows
      rw [Prod.mk.injEq] at later
      rw [takeWhile_cons_of_pos wordChar, dropWhile_cons_of_pos wordChar,
        takeWhile_cons_of_pos wordChar, dropWhile_cons_of_pos wordChar,
        later.1, later.2]
    · rw [takeWhile_cons_of_neg wordChar, dropWhile_cons_of_neg wordChar,
        takeWhile_cons_of_neg wordChar, dropWhile_cons_of_neg wordChar]
      rfl

theorem not_wordChar_opening :
    JsonText.isWordChar '"' = false ∧ JsonText.isWordChar '[' = false ∧
      JsonText.isWordChar '{' = false := by
  decide

theorem parseValue_bare {c : Char} {text : List Char}
    (notQuote : c ≠ '"') (notBracket : c ≠ '[') (notBrace : c ≠ '{')
    (fuel : Nat) :
    parseValue (fuel + 1) (c :: text) =
      (ofWord ((c :: text).span JsonText.isWordChar).1).map
        fun value => (value, ((c :: text).span JsonText.isWordChar).2) := by
  rw [parseValue.eq_def]
  split
  case h_1 => contradiction
  case h_2 same => exact absurd (List.cons.inj same).1 notQuote
  case h_3 same => exact absurd (List.cons.inj same).1 notBracket
  case h_4 same => exact absurd (List.cons.inj same).1 notBrace
  case h_5 => rfl

theorem parseValue_word {c : Char} {word rest : List Char} (fuel : Nat)
    (chars : (c :: word).all JsonText.isWordChar = true) (ends : WordEnds rest) :
    parseValue (fuel + 1) (c :: word ++ rest) =
      (ofWord (c :: word)).map fun value => (value, rest) := by
  have first : JsonText.isWordChar c = true := by
    rw [all_cons, Bool.and_eq_true] at chars
    exact chars.1
  obtain ⟨quote, bracket, brace⟩ := not_wordChar_opening
  have notQuote : c ≠ '"' := by rintro rfl; simp [quote] at first
  have notBracket : c ≠ '[' := by rintro rfl; simp [bracket] at first
  have notBrace : c ≠ '{' := by rintro rfl; simp [brace] at first
  have spanned := span_word chars ends
  rw [cons_append] at spanned ⊢
  rw [parseValue_bare notQuote notBracket notBrace, spanned]

theorem ofWord_number (value : JsonNumber) : ofWord value.word = some (.num value) := by
  have notNull : value.word ≠ "null".toList := by
    intro same
    have number := value.isNumber
    rw [same] at number
    revert number
    decide
  have notTrue : value.word ≠ "true".toList := by
    intro same
    have number := value.isNumber
    rw [same] at number
    revert number
    decide
  have notFalse : value.word ≠ "false".toList := by
    intro same
    have number := value.isNumber
    rw [same] at number
    revert number
    decide
  rw [ofWord, if_neg notNull, if_neg notTrue, if_neg notFalse,
    dif_pos value.wordChars, dif_pos value.isNumber]

theorem JsonNumber_word_ne_nil (value : JsonNumber) : value.word ≠ [] := by
  intro empty
  have number := value.isNumber
  rw [empty] at number
  revert number
  decide

def startsValue (c : Char) : Bool := c == '"' || c == '[' || c == '{' || JsonText.isWordChar c

theorem startsValue_of_wordChar (wordChar : JsonText.isWordChar c = true) :
    startsValue c = true := by
  rw [startsValue, wordChar, Bool.or_true]

theorem dumps_eq_cons (value : Json) :
    ∃ c rest, dumps value = c :: rest ∧ startsValue c = true := by
  cases value with
  | null => exact ⟨'n', _, by rw [dumps]; rfl, by decide⟩
  | bool value =>
    cases value with
    | false => exact ⟨'f', _, by rw [dumps]; rfl, by decide⟩
    | true => exact ⟨'t', _, by rw [dumps]; rfl, by decide⟩
  | num value =>
    obtain ⟨c, rest, isCons⟩ := exists_cons_of_ne_nil (JsonNumber_word_ne_nil value)
    refine ⟨c, rest, by rw [dumps, isCons], startsValue_of_wordChar ?_⟩
    have chars := value.wordChars
    rw [isCons, all_cons, Bool.and_eq_true] at chars
    exact chars.1
  | str value => exact ⟨'"', _, by rw [dumps, dumpsString], by decide⟩
  | arr items => exact ⟨'[', _, by rw [dumps], by decide⟩
  | obj members => exact ⟨'{', _, by rw [dumps], by decide⟩

theorem skip_startsValue (starts : startsValue c = true) :
    skipSpace (c :: rest) = c :: rest := by
  have notSpace : ¬isSpace c = true := by
    intro space
    rw [isSpace, Bool.or_eq_true, Bool.or_eq_true, Bool.or_eq_true, beq_iff_eq,
      beq_iff_eq, beq_iff_eq, beq_iff_eq] at space
    rcases space with ((rfl | rfl) | rfl) | rfl <;> revert starts <;> decide
  rw [skipSpace, if_neg notSpace]

theorem skipSpace_dumps (value : Json) (rest : List Char) :
    skipSpace (dumps value ++ rest) = dumps value ++ rest := by
  obtain ⟨c, inside, isCons, starts⟩ := dumps_eq_cons value
  rw [isCons, cons_append, skip_startsValue starts]

theorem dumpsItems_cons (item next : Json) (items : List Json) :
    dumpsItems (item :: next :: items) = dumps item ++ ',' :: dumpsItems (next :: items) :=
  dumpsItems.eq_3 item (next :: items) (cons_ne_nil _ _)

theorem dumpsMembers_cons (key : String) (value : Json) (next : String × Json)
    (members : List (String × Json)) :
    dumpsMembers ((key, value) :: next :: members) = dumpsString key ++ ':' ::
        (dumps value ++ ',' :: dumpsMembers (next :: members)) :=
  dumpsMembers.eq_3 key value (next :: members) (cons_ne_nil _ _)

theorem dumpsItems_eq_cons (item : Json) (items : List Json) :
    ∃ c rest, dumpsItems (item :: items) = c :: rest ∧ startsValue c = true := by
  obtain ⟨c, inside, isCons, starts⟩ := dumps_eq_cons item
  cases items with
  | nil => exact ⟨c, inside ++ [']'], by rw [dumpsItems, isCons]; rfl, starts⟩
  | cons next items =>
    refine ⟨c, inside ++ ',' :: dumpsItems (next :: items), ?_, starts⟩
    rw [dumpsItems_cons, isCons]
    rfl

theorem dumpsMembers_eq_cons (key : String) (value : Json) (members : List (String × Json)) :
    ∃ rest, dumpsMembers ((key, value) :: members) = '"' :: rest := by
  cases members with
  | nil => exact ⟨_, by rw [dumpsMembers, dumpsString]; rfl⟩
  | cons next members => exact ⟨_, by rw [dumpsMembers_cons, dumpsString]; rfl⟩

theorem parseValue_quote (fuel : Nat) (rest : List Char) :
    parseValue (fuel + 1) ('"' :: rest) =
      (scanString rest).map fun (text, after) => (.str (.ofList text), after) := by
  rw [parseValue.eq_def]
  rfl

theorem parseValue_bracket_closed (skipped : skipSpace rest = ']' :: after) (fuel : Nat) :
    parseValue (fuel + 1) ('[' :: rest) = some (.arr [], after) := by
  rw [parseValue.eq_def]
  simp only [skipped]

theorem parseValue_bracket
    (skipped : skipSpace rest = c :: inside) (notClosed : c ≠ ']') (fuel : Nat) :
    parseValue (fuel + 1) ('[' :: rest) =
      (parseItems fuel (c :: inside)).map fun (items, after) => (.arr items, after) := by
  rw [parseValue.eq_def]
  simp only [skipped]
  split
  case h_1 same => exact absurd (List.cons.inj same).1 notClosed
  case h_2 => rfl

theorem parseValue_brace_closed (skipped : skipSpace rest = '}' :: after) (fuel : Nat) :
    parseValue (fuel + 1) ('{' :: rest) = some (.obj [], after) := by
  rw [parseValue.eq_def]
  simp only [skipped]

theorem parseValue_brace
    (skipped : skipSpace rest = c :: inside) (notClosed : c ≠ '}') (fuel : Nat) :
    parseValue (fuel + 1) ('{' :: rest) =
      (parseMembers fuel (c :: inside)).map fun (members, after) => (.obj members, after) := by
  rw [parseValue.eq_def]
  simp only [skipped]
  split
  case h_1 same => exact absurd (List.cons.inj same).1 notClosed
  case h_2 => rfl

theorem parseMembers_of_ne_quote (notQuote : c ≠ '"') (fuel : Nat) (text : List Char) :
    parseMembers fuel (c :: text) = none := by
  rw [parseMembers.eq_def]
  split
  case h_1 => rfl
  case h_2 same => exact absurd (List.cons.inj same).1 notQuote
  case h_3 => rfl

theorem skipSpace_cons (rest : List Char) (notSpace : isSpace c = false) :
    skipSpace (c :: rest) = c :: rest := by
  rw [skipSpace, notSpace]
  rfl

mutual

theorem parseValue_dumps :
    ∀ (value : Json) (fuel : Nat) (rest : List Char),
      (dumps value).length ≤ fuel → WordEnds rest →
        parseValue fuel (dumps value ++ rest) = some (value, rest)
  | value, 0, rest, enough, _ => by
    obtain ⟨c, inside, isCons, -⟩ := dumps_eq_cons value
    rw [isCons] at enough
    exact absurd enough (Nat.not_succ_le_zero _)
  | .null, fuel + 1, rest, _, ends => by
    rw [dumps]
    exact @parseValue_word 'n' "ull".toList rest fuel (by decide) ends
  | .bool true, fuel + 1, rest, _, ends => by
    rw [dumps]
    exact @parseValue_word 't' "rue".toList rest fuel (by decide) ends
  | .bool false, fuel + 1, rest, _, ends => by
    rw [dumps]
    exact @parseValue_word 'f' "alse".toList rest fuel (by decide) ends
  | .num value, fuel + 1, rest, _, ends => by
    obtain ⟨c, word, isCons⟩ := exists_cons_of_ne_nil (JsonNumber_word_ne_nil value)
    have chars := value.wordChars
    have number := ofWord_number value
    rw [isCons] at chars number
    rw [dumps, isCons, parseValue_word fuel chars ends, number]
    rfl
  | .str value, fuel + 1, rest, _, _ => by
    rw [dumps, dumpsString, cons_append, append_assoc,
      parseValue_quote, singleton_append, scanString_escapeChars]
    exact congrArg (fun text => some (Json.str text, rest)) value.ofList_toList
  | .arr [], fuel + 1, rest, _, _ => by
    rw [dumps, dumpsItems, parseValue.eq_def]
    rfl
  | .arr (item :: items), fuel + 1, rest, enough, _ => by
    rw [dumps, length_cons] at enough
    obtain ⟨c, inside, isCons, starts⟩ := dumpsItems_eq_cons item items
    have notClosed : c ≠ ']' := by
      rintro rfl
      revert starts
      decide
    rw [dumps, cons_append, isCons, cons_append,
      parseValue_bracket (skip_startsValue starts) notClosed,
      ← cons_append, ← isCons,
      parseItems_dumpsItems (item :: items) fuel rest (cons_ne_nil _ _)
        (Nat.le_of_succ_le_succ enough)]
    rfl
  | .obj [], fuel + 1, rest, _, _ => by
    rw [dumps, dumpsMembers, parseValue.eq_def]
    rfl
  | .obj ((key, value) :: members), fuel + 1, rest, enough, _ => by
    rw [dumps, length_cons] at enough
    obtain ⟨inside, isCons⟩ := dumpsMembers_eq_cons key value members
    rw [dumps, cons_append, isCons, cons_append,
      parseValue_brace (skip_startsValue (by decide)) (by decide),
      ← cons_append, ← isCons,
      parseMembers_dumpsMembers ((key, value) :: members) fuel rest
        (cons_ne_nil _ _) (Nat.le_of_succ_le_succ enough)]
    rfl

theorem parseItems_dumpsItems :
    ∀ (items : List Json) (fuel : Nat) (rest : List Char),
      items ≠ [] → (dumpsItems items).length ≤ fuel →
        parseItems fuel (dumpsItems items ++ rest) = some (items, rest)
  | [], _, _, nonempty, _ => absurd rfl nonempty
  | item :: items, 0, rest, _, enough => by
    obtain ⟨c, inside, isCons, -⟩ := dumpsItems_eq_cons item items
    rw [isCons] at enough
    exact absurd enough (Nat.not_succ_le_zero _)
  | [item], fuel + 1, rest, _, enough => by
    rw [dumpsItems, length_append, length_singleton] at enough
    rw [dumpsItems, append_assoc, singleton_append, parseItems,
      parseValue_dumps item fuel _ (Nat.le_of_succ_le_succ enough) (wordEnds_cons (by decide))]
    rfl
  | item :: next :: items, fuel + 1, rest, _, enough => by
    rw [dumpsItems_cons, length_append, length_cons] at enough
    obtain ⟨c, inside, isCons, starts⟩ := dumpsItems_eq_cons next items
    have skipped :
        skipSpace (dumpsItems (next :: items) ++ rest) = dumpsItems (next :: items) ++ rest := by
      rw [isCons, cons_append, skip_startsValue starts]
    rw [dumpsItems_cons, append_assoc, cons_append, parseItems,
      parseValue_dumps item fuel _ (by omega) (wordEnds_cons (by decide)),
      bind_some]
    simp only [skipSpace_cons _ (show isSpace ',' = false by decide), skipped,
      parseItems_dumpsItems (next :: items) fuel rest (cons_ne_nil _ _) (by omega), map_some]

theorem parseMembers_dumpsMembers :
    ∀ (members : List (String × Json)) (fuel : Nat) (rest : List Char),
      members ≠ [] → (dumpsMembers members).length ≤ fuel →
        parseMembers fuel (dumpsMembers members ++ rest) = some (members, rest)
  | [], _, _, nonempty, _ => absurd rfl nonempty
  | (key, value) :: members, 0, rest, _, enough => by
    obtain ⟨inside, isCons⟩ := dumpsMembers_eq_cons key value members
    rw [isCons] at enough
    exact absurd enough (Nat.not_succ_le_zero _)
  | [(key, value)], fuel + 1, rest, _, enough => by
    simp only [dumpsMembers, dumpsString, length_append, length_cons] at enough
    rw [dumpsMembers, dumpsString, append_assoc, cons_append,
      append_assoc, singleton_append, cons_append,
      append_assoc, singleton_append, parseMembers,
      scanString_escapeChars, bind_some]
    simp only [skipSpace_cons _ (show isSpace ':' = false by decide),
      skipSpace_dumps, skipSpace_cons _ (show isSpace '}' = false by decide),
      parseValue_dumps value fuel ('}' :: rest) (by omega)
        (wordEnds_cons (by decide)), bind_some, String.ofList_toList]
  | (key, value) :: next :: members, fuel + 1, rest, _, enough => by
    obtain ⟨inside, isCons⟩ := dumpsMembers_eq_cons next.1 next.2 members
    have skipped :
        skipSpace (dumpsMembers (next :: members) ++ rest) =
          dumpsMembers (next :: members) ++ rest := by
      rw [isCons, cons_append, skip_startsValue (by decide)]
    simp only [dumpsMembers_cons, dumpsString, length_append, length_cons] at enough
    rw [dumpsMembers_cons, dumpsString, append_assoc, cons_append,
      append_assoc, singleton_append, cons_append,
      append_assoc, cons_append, parseMembers,
      scanString_escapeChars, bind_some]
    simp only [skipSpace_cons _ (show isSpace ':' = false by decide),
      skipSpace_dumps, skipSpace_cons _ (show isSpace ',' = false by decide),
      parseValue_dumps value fuel
        (',' :: (dumpsMembers (next :: members) ++ rest)) (by omega)
        (wordEnds_cons (by decide)),
      bind_some, skipped,
      parseMembers_dumpsMembers (next :: members) fuel rest (cons_ne_nil _ _) (by omega),
      map_some, String.ofList_toList]

end

theorem loads_dumps (value : Json) : loads (dumps value) = some value := by
  have skipped := skipSpace_dumps value []
  have read := parseValue_dumps value ((dumps value).length + 1) [] (Nat.le_succ _) wordEnds_nil
  rw [append_nil] at skipped read
  rw [loads, skipped, read]
  rfl

theorem skipSpace_append (something : skipSpace text ≠ []) (extra : List Char) :
    skipSpace (text ++ extra) = skipSpace text ++ extra := by
  induction text with
  | nil => exact absurd rfl something
  | cons first text ih =>
    rw [skipSpace] at something
    rw [cons_append, skipSpace, skipSpace]
    by_cases space : isSpace first = true
    · rw [if_pos space] at something ⊢
      rw [if_pos space]
      exact ih something
    · rw [if_neg space, if_neg space]
      rfl

theorem skipSpace_append_cons (skipped : skipSpace text = c :: rest) (extra : List Char) :
    skipSpace (text ++ extra) = c :: (rest ++ extra) := by
  rw [skipSpace_append (by rw [skipped]; exact cons_ne_nil _ _), skipped]
  rfl

theorem parseValue_nil (fuel : Nat) : parseValue fuel [] = none := by
  cases fuel with
  | zero => rw [parseValue]
  | succ fuel =>
    rw [parseValue.eq_def]
    rfl

theorem parseItems_nil (fuel : Nat) : parseItems fuel [] = none := by
  cases fuel with
  | zero => rw [parseItems]
  | succ fuel => rw [parseItems, parseValue_nil]; rfl

theorem parseMembers_nil (fuel : Nat) : parseMembers fuel [] = none := by
  cases fuel with
  | zero => rw [parseMembers]
  | succ fuel =>
    rw [parseMembers.eq_def]

/-- Where a value's end can be seen: something follows it, or it closes itself. -/
def Closed (text after : List Char) : Prop :=
  after ≠ [] ∨ ∃ c ∈ text.head?, c = '"' ∨ c = '[' ∨ c = '{'

theorem parseValue_append_word {c : Char} {text after : List Char} {value : Json} {fuel : Nat}
    (notQuote : c ≠ '"') (notBracket : c ≠ '[') (notBrace : c ≠ '{')
    (read : parseValue (fuel + 1) (c :: text) = some (value, after))
    (closed : Closed (c :: text) after) (more : Nat) (extra : List Char) :
    parseValue (more + 1) (c :: text ++ extra) = some (value, after ++ extra) := by
  have follows : after ≠ [] := by
    rcases closed with follows | ⟨first, member, opens⟩
    · exact follows
    · cases member
      rcases opens with rfl | rfl | rfl
      · exact absurd rfl notQuote
      · exact absurd rfl notBracket
      · exact absurd rfl notBrace
  rw [parseValue_bare notQuote notBracket notBrace, map_eq_some_iff] at read
  obtain ⟨found, isWord, same⟩ := read
  cases same
  have longer :
      (c :: text ++ extra).span JsonText.isWordChar =
        (((c :: text).span JsonText.isWordChar).1,
          ((c :: text).span JsonText.isWordChar).2 ++ extra) := by
    exact span_append follows extra
  rw [cons_append] at longer ⊢
  rw [parseValue_bare notQuote notBracket notBrace, longer, isWord]
  rfl

mutual

theorem parseValue_append :
    ∀ {fuel : Nat} {text after : List Char} {value : Json} {more : Nat},
      parseValue fuel text = some (value, after) → Closed text after →
        fuel ≤ more → ∀ extra : List Char,
          parseValue more (text ++ extra) = some (value, after ++ extra)
  | 0, _, _, _, _, read, _, _, _ => by
    rw [parseValue] at read
    cases read
  | fuel + 1, [], after, value, more, read, closed, _, _ => by
    rw [parseValue_nil] at read
    cases read
  | fuel + 1, c :: text, after, value, 0, _, _, atMost, _ => absurd atMost (Nat.not_succ_le_zero _)
  | fuel + 1, c :: text, after, value, more + 1, read, closed, atMost, extra => by
    have fuelAtMost : fuel ≤ more := Nat.le_of_succ_le_succ atMost
    by_cases quote : c = '"'
    · subst c
      rw [parseValue_quote, map_eq_some_iff] at read
      obtain ⟨⟨chars, rest⟩, scanned, same⟩ := read
      cases same
      rw [cons_append, parseValue_quote, scanString_append scanned]
      rfl
    by_cases bracket : c = '['
    · subst c
      cases skipped : skipSpace text with
      | nil =>
        rw [parseValue.eq_def] at read
        simp only [skipped, parseItems_nil] at read
        cases read
      | cons c inside =>
        have longer := skipSpace_append_cons skipped extra
        by_cases closes : c = ']'
        · subst c
          rw [parseValue_bracket_closed skipped] at read
          cases read
          exact parseValue_bracket_closed longer more
        · rw [parseValue_bracket skipped closes, map_eq_some_iff] at read
          obtain ⟨⟨items, rest⟩, inner, same⟩ := read
          cases same
          rw [cons_append, parseValue_bracket longer closes,
            ← cons_append, parseItems_append inner fuelAtMost extra]
          rfl
    by_cases brace : c = '{'
    · subst c
      cases skipped : skipSpace text with
      | nil =>
        rw [parseValue.eq_def] at read
        simp only [skipped, parseMembers_nil] at read
        cases read
      | cons c inside =>
        have longer := skipSpace_append_cons skipped extra
        by_cases closes : c = '}'
        · subst c
          rw [parseValue_brace_closed skipped] at read
          cases read
          exact parseValue_brace_closed longer more
        · rw [parseValue_brace skipped closes, map_eq_some_iff] at read
          obtain ⟨⟨members, rest⟩, inner, same⟩ := read
          cases same
          rw [cons_append, parseValue_brace longer closes,
            ← cons_append, parseMembers_append inner fuelAtMost extra]
          rfl
    · exact parseValue_append_word quote bracket brace read closed more extra

theorem parseItems_append :
    ∀ {fuel : Nat} {text after : List Char} {items : List Json} {more : Nat},
      parseItems fuel text = some (items, after) → fuel ≤ more →
        ∀ extra : List Char, parseItems more (text ++ extra) = some (items, after ++ extra)
  | 0, _, _, _, _, read, _, _ => by
    rw [parseItems] at read
    cases read
  | fuel + 1, _, _, _, 0, _, atMost, _ => absurd atMost (Nat.not_succ_le_zero _)
  | fuel + 1, text, after, items, more + 1, read, atMost, extra => by
    have fuelAtMost : fuel ≤ more := Nat.le_of_succ_le_succ atMost
    rw [parseItems, bind_eq_some_iff] at read
    obtain ⟨⟨item, rest⟩, first, later⟩ := read
    dsimp only at later
    have closed : Closed text rest := by
      left
      rintro rfl
      cases later
    rw [parseItems, parseValue_append first closed fuelAtMost extra, bind_some]
    split at later
    case h_1 inside skipped =>
      rw [map_eq_some_iff] at later
      obtain ⟨⟨others, last⟩, inner, same⟩ := later
      cases same
      have something : skipSpace inside ≠ [] := by
        intro nothing
        rw [nothing, parseItems_nil] at inner
        cases inner
      simp only [skipSpace_append_cons skipped, skipSpace_append something,
        parseItems_append inner fuelAtMost extra, map_some]
    case h_2 inside skipped =>
      cases later
      simp only [skipSpace_append_cons skipped]
    case h_3 => cases later

theorem parseMembers_append :
    ∀ {fuel : Nat} {text after : List Char} {members : List (String × Json)}
      {more : Nat},
      parseMembers fuel text = some (members, after) → fuel ≤ more →
        ∀ extra : List Char, parseMembers more (text ++ extra) = some (members, after ++ extra)
  | 0, _, _, _, _, read, _, _ => by
    rw [parseMembers] at read
    cases read
  | fuel + 1, _, _, _, 0, _, atMost, _ => absurd atMost (Nat.not_succ_le_zero _)
  | fuel + 1, [], after, members, more, read, _, _ => by
    rw [parseMembers_nil] at read
    cases read
  | fuel + 1, c :: text, after, members, more + 1, read, atMost, extra => by
    have fuelAtMost : fuel ≤ more := Nat.le_of_succ_le_succ atMost
    by_cases quote : c = '"'
    · subst c
      rw [parseMembers, bind_eq_some_iff] at read
      obtain ⟨⟨key, afterKey⟩, scanned, later⟩ := read
      dsimp only at later
      rw [cons_append, parseMembers, scanString_append scanned, bind_some]
      split at later
      case h_2 => cases later
      case h_1 beforeValue skippedColon =>
        rw [bind_eq_some_iff] at later
        obtain ⟨⟨value, afterValue⟩, first, later⟩ := later
        dsimp only at later
        have closed : Closed (skipSpace beforeValue) afterValue := by
          left
          rintro rfl
          cases later
        have something : skipSpace beforeValue ≠ [] := by
          intro nothing
          rw [nothing, parseValue_nil] at first
          cases first
        simp only [skipSpace_append_cons skippedColon,
          skipSpace_append something,
          parseValue_append first closed fuelAtMost extra, bind_some]
        split at later
        case h_1 inside skipped =>
          rw [map_eq_some_iff] at later
          obtain ⟨⟨others, last⟩, inner, same⟩ := later
          cases same
          have something : skipSpace inside ≠ [] := by
            intro nothing
            rw [nothing, parseMembers_nil] at inner
            cases inner
          simp only [skipSpace_append_cons skipped, skipSpace_append something,
            parseMembers_append inner fuelAtMost extra, map_some]
        case h_2 inside skipped =>
          cases later
          simp only [skipSpace_append_cons skipped]
        case h_3 => cases later
    · rw [parseMembers_of_ne_quote quote] at read
      cases read

end

theorem loads_of_cut_object {members : List (String × Json)} {cut missing : List Char}
    (whole : cut ++ missing = dumps (.obj members)) (cutShort : missing ≠ []) :
    loads cut = none := by
  cases cut with
  | nil => rw [loads, skipSpace, parseValue_nil]
  | cons c cut =>
    have opens : c = '{' := by
      rw [dumps, cons_append] at whole
      exact (List.cons.inj whole).1
    subst c
    rw [loads, skip_startsValue (by decide)]
    split
    case h_2 => rfl
    case h_1 value after read =>
      -- With enough fuel for both, the whole text would be read in two ways.
      let fuel := max (('{' :: cut).length + 1) (dumps (.obj members)).length
      have readOn : parseValue fuel ('{' :: cut ++ missing) = some (value, after ++ missing) :=
        parseValue_append read (.inr ⟨'{', rfl, .inr (.inr rfl)⟩) (Nat.le_max_left _ _) missing
      have readWhole := parseValue_dumps (.obj members) fuel [] (Nat.le_max_right _ _) wordEnds_nil
      rw [append_nil, ← whole, readOn, Option.some.injEq, Prod.mk.injEq] at readWhole
      exact absurd (append_eq_nil_iff.mp readWhole.2).2 cutShort

end MemoryService.Foundation.Json
