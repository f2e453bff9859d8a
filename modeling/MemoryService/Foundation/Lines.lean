import Mathlib.Data.List.TakeDrop

/-!
# Lines of a text

`splitlines` cuts a text at every line boundary of Unicode, not only at the line feed: at the
separators of ASCII, at U+0085, U+2028 and U+2029, and once at a carriage return with its line
feed.
-/

namespace MemoryService.Foundation

open List

def isLineBreak (c : Char) : Bool :=
  c == '\n' || c == '\r' || c == '\x0b' || c == '\x0c' || c == '\x1c' ||
    c == '\x1d' || c == '\x1e' || c == '\u0085' || c == '\u2028' || c == '\u2029'

/-- The lines of a text; a last line need not be ended. -/
def splitlines : List Char → List (List Char)
  | [] => []
  | '\r' :: '\n' :: rest => [] :: splitlines rest
  | c :: rest =>
    if isLineBreak c then [] :: splitlines rest
    else
      match splitlines rest with
      | [] => [[c]]
      | line :: lines => (c :: line) :: lines

def unlines (lines : List (List Char)) : List Char := ['\n'].intercalate lines ++ ['\n']

/-- A line that is not cut. -/
def Unbroken (line : List Char) : Prop := ∀ c ∈ line, isLineBreak c = false

variable {c : Char} {line text : List Char} {lines : List (List Char)}

theorem splitlines_cons (notBreak : isLineBreak c = false) (rest : List Char) :
    splitlines (c :: rest) =
      match splitlines rest with
      | [] => [[c]]
      | line :: lines => (c :: line) :: lines := by
  have notReturn : c ≠ '\r' := by
    rintro rfl
    revert notBreak
    decide
  rw [splitlines.eq_def]
  split
  case h_1 => contradiction
  case h_2 same => exact absurd (List.cons.inj same).1 notReturn
  case h_3 same =>
    obtain ⟨rfl, rfl⟩ := List.cons.inj same
    rw [if_neg (by rw [notBreak]; decide)]

theorem splitlines_break (isBreak : isLineBreak c = true) (rest : List Char) :
    ∃ lines, splitlines (c :: rest) = [] :: lines := by
  rw [splitlines.eq_def]
  split
  case h_1 => contradiction
  case h_2 => exact ⟨_, rfl⟩
  case h_3 same =>
    obtain ⟨rfl, rfl⟩ := List.cons.inj same
    exact ⟨_, if_pos isBreak⟩

theorem splitlines_append (unbroken : Unbroken line) {first : List Char}
    (later : splitlines text = first :: lines) :
    splitlines (line ++ text) = (line ++ first) :: lines := by
  induction line with
  | nil => exact later
  | cons c line ih =>
    have rest := ih fun d member => unbroken d (mem_cons_of_mem c member)
    rw [cons_append, splitlines_cons (unbroken c mem_cons_self), rest]
    rfl

theorem splitlines_newline (rest : List Char) :
    splitlines ('\n' :: rest) = [] :: splitlines rest := by
  rw [splitlines.eq_def]
  rfl

theorem splitlines_line (unbroken : Unbroken line) (rest : List Char) :
    splitlines (line ++ '\n' :: rest) = line :: splitlines rest := by
  rw [splitlines_append unbroken (splitlines_newline rest), append_nil]

theorem unlines_eq_flatMap (nonempty : lines ≠ []) :
    unlines lines = lines.flatMap fun line => line ++ ['\n'] := by
  induction lines with
  | nil => exact absurd rfl nonempty
  | cons line lines ih =>
    cases lines with
    | nil => simp [unlines]
    | cons next lines =>
      have rest := ih (cons_ne_nil next lines)
      rw [unlines] at rest
      rw [unlines, intercalate_cons_cons, append_assoc, rest]
      rfl

theorem splitlines_flatMap (unbroken : ∀ line ∈ lines, Unbroken line) (text : List Char) :
    splitlines (lines.flatMap (fun line => line ++ ['\n']) ++ text) = lines ++ splitlines text := by
  induction lines with
  | nil => rfl
  | cons line lines ih =>
    have rest := ih fun other member => unbroken other (mem_cons_of_mem line member)
    rw [flatMap_cons, append_assoc, append_assoc,
      singleton_append, splitlines_line (unbroken line mem_cons_self),
      rest]
    rfl

theorem splitlines_unlines (nonempty : lines ≠ []) (unbroken : ∀ line ∈ lines, Unbroken line) :
    splitlines (unlines lines) = lines := by
  have cut := splitlines_flatMap unbroken []
  have noLines : splitlines [] = [] := rfl
  rw [append_nil, noLines, append_nil] at cut
  rw [unlines_eq_flatMap nonempty, cut]

theorem splitlines_unlines_of_break {good later : List (List Char)} {bad : List Char}
    (unbroken : ∀ line ∈ good, Unbroken line) (broken : ¬Unbroken bad) :
    ∃ cut c missing lines,
      cut ++ c :: missing = bad ∧ isLineBreak c = true ∧
        splitlines (unlines (good ++ bad :: later)) = good ++ cut :: lines := by
  let cut := bad.takeWhile fun c => !isLineBreak c
  have cutUnbroken : Unbroken cut := by
    intro c member
    have holds := all_eq_true.mp all_takeWhile c member
    rwa [Bool.not_eq_true'] at holds
  have parts : cut ++ bad.dropWhile (fun c => !isLineBreak c) = bad := takeWhile_append_dropWhile
  cases missing : bad.dropWhile fun c => !isLineBreak c with
  | nil =>
    rw [missing, append_nil] at parts
    rw [parts] at cutUnbroken
    exact absurd cutUnbroken broken
  | cons c rest =>
    rw [missing] at parts
    have isBreak : isLineBreak c = true := by
      have first := head_dropWhile_not (fun c => !isLineBreak c)
        (by rw [missing]; exact cons_ne_nil c rest)
      simpa only [missing, head_cons, Bool.not_eq_false'] using first
    refine ⟨cut, c, rest, ?_⟩
    rw [unlines_eq_flatMap (append_ne_nil_of_right_ne_nil _ (cons_ne_nil _ _)),
      flatMap_append, splitlines_flatMap unbroken, flatMap_cons,
      ← parts, append_assoc, append_assoc, cons_append]
    obtain ⟨lines, later⟩ :=
      splitlines_break isBreak (rest ++ (['\n'] ++ later.flatMap fun line => line ++ ['\n']))
    refine ⟨lines, rfl, isBreak, ?_⟩
    rw [splitlines_append cutUnbroken later, append_nil]

/-!
## Lines joined by line feeds

A text whose only line breaks are line feeds is its lines joined by them, and a line feed where
it ends with one.
-/

universe u

section Intercalate

variable {α : Type u} {separator : List α}

theorem intercalate_append {first second : List (List α)} (isFirst : first ≠ [])
    (isSecond : second ≠ []) :
    separator.intercalate (first ++ second) =
      separator.intercalate first ++ separator ++ separator.intercalate second := by
  induction first with
  | nil => exact absurd rfl isFirst
  | cons item rest ih =>
    cases rest with
    | nil =>
      rw [cons_append, nil_append, intercalate_cons_of_ne_nil isSecond, intercalate_singleton]
    | cons next others =>
      rw [cons_append, cons_append, intercalate_cons_cons, ← cons_append,
        ih (cons_ne_nil next others), intercalate_cons_cons]
      simp only [append_assoc]

variable {items : List (List α)}

theorem mem_intercalate {x : α}
    (member : x ∈ separator.intercalate items) : x ∈ separator ∨ ∃ item ∈ items, x ∈ item := by
  induction items with
  | nil => cases member
  | cons item rest ih =>
    cases rest with
    | nil =>
      rw [intercalate_singleton] at member
      exact .inr ⟨item, mem_cons_self, member⟩
    | cons next others =>
      rw [intercalate_cons_cons, append_assoc] at member
      rcases mem_append.mp member with isItem | isLater
      · exact .inr ⟨item, mem_cons_self, isItem⟩
      · rcases mem_append.mp isLater with isSeparator | isRest
        · exact .inl isSeparator
        · refine (ih isRest).imp_right ?_
          rintro ⟨other, isOther, inOther⟩
          exact ⟨other, mem_cons_of_mem item isOther, inOther⟩

theorem intercalate_suffix (item : List α) (items : List (List α)) :
    separator.intercalate items <:+ separator.intercalate (item :: items) := by
  cases items with
  | nil => simp
  | cons next rest =>
    rw [intercalate_cons_cons]
    exact suffix_append _ _

theorem infix_intercalate {item : List α} (member : item ∈ items) :
    item <:+: separator.intercalate items := by
  induction items with
  | nil => cases member
  | cons first rest ih =>
    cases member with
    | head =>
      cases rest with
      | nil => simp
      | cons next others =>
        rw [intercalate_cons_cons, append_assoc]
        exact (prefix_append _ _).isInfix
    | tail _ isLater =>
      exact (ih isLater).trans (intercalate_suffix first rest).isInfix

theorem getLast?_intercalate {last : List α} (isLast : last ≠ []) :
    (separator.intercalate (items ++ [last])).getLast? = last.getLast? := by
  by_cases isFirst : items = []
  · rw [isFirst, nil_append, intercalate_singleton]
  · rw [intercalate_append isFirst (cons_ne_nil _ _), intercalate_singleton,
      getLast?_append, Option.or_of_isSome (getLast?_isSome.mpr isLast)]

end Intercalate

def ended (text : List Char) : List Char := if text.getLast? = some '\n' then ['\n'] else []

theorem ended_cons (c : Char) {rest : List Char} (isRest : rest ≠ []) :
    ended (c :: rest) = ended rest := by
  rw [ended, ended, getLast?_cons_of_ne_nil isRest]

theorem splitlines_ne_nil (isText : text ≠ []) : splitlines text ≠ [] := by
  cases text with
  | nil => exact absurd rfl isText
  | cons c rest =>
    cases isBreak : isLineBreak c with
    | true =>
      obtain ⟨lines, isLines⟩ := splitlines_break isBreak rest
      rw [isLines]
      exact cons_ne_nil _ _
    | false =>
      rw [splitlines_cons isBreak]
      split <;> exact cons_ne_nil _ _

theorem joined_splitlines (feeds : ∀ c ∈ text, isLineBreak c = true → c = '\n') :
    ['\n'].intercalate (splitlines text) ++ ended text = text := by
  induction text with
  | nil => rfl
  | cons c rest ih =>
    have later := ih fun other member => feeds other (mem_cons_of_mem c member)
    cases isBreak : isLineBreak c with
    | true =>
      obtain rfl := feeds c mem_cons_self isBreak
      rw [splitlines_newline]
      by_cases isRest : rest = []
      · subst isRest
        rfl
      · rw [intercalate_cons_of_ne_nil (splitlines_ne_nil isRest), ended_cons _ isRest,
          nil_append, append_assoc, later]
        rfl
    | false =>
      rw [splitlines_cons isBreak]
      by_cases isRest : rest = []
      · subst isRest
        have notEnded : ended [c] = [] := by
          rw [ended, if_neg]
          intro isFeed
          cases Option.some.inj isFeed
          cases isBreak
        rw [notEnded]
        rfl
      · rw [ended_cons _ isRest]
        split
        case h_1 none_ => exact absurd none_ (splitlines_ne_nil isRest)
        case h_2 line lines isLines =>
          rw [isLines] at later
          rw [intercalate_cons_cons_left, cons_append, later]

end MemoryService.Foundation
