import MemoryService.Foundation.FirstSeen
import Mathlib.Tactic.IntervalCases
import MemoryService.Profile.Blocks

/-!
# The rules that a section lists

A rule is written on a line of its own, with the day it was said and what it superseded behind
it; what reads the section takes a date and all that follows it off the line.
-/

namespace MemoryService.Context

open Foundation Profile List

def rulesBlockName : String := "standing_rules"

def rulesMax : ℕ := 6

def aboutLineChars : ℕ := 200

/-- What `\d` matches. -/
structure Digits where
  isDigit : Char → Bool
  space : ∀ {c : Char}, Rag.isSpace c = true → isDigit c = false
  bracket : isDigit '(' = false

structure RuleHit where
  recordId : String
  text : List Char
  observedAt : Option (List Char)
  /-- The identifiers of its sources, sorted. -/
  sources : List String

structure SectionView where
  block : String
  text : List Char

namespace RuleHit

def lineText (hit : RuleHit) : List Char := squeezed hit.text

def said (hit : RuleHit) : List String × List Char :=
  (hit.sources, hit.observedAt.getD "None".toList)

end RuleHit

section

variable (digits : Digits)

def saidPrefix : List Char := [' ', '(', 's', 'a', 'i', 'd', ' ']

/-- `\d{4}-\d{2}-\d{2}` -/
def dayPattern : List (Char → Bool) :=
  let d := digits.isDigit
  [d, d, d, d, (· == '-'), d, d, (· == '-'), d, d]

/-- ` \(said \d{4}-\d{2}-\d{2}` -/
def saidPattern : List (Char → Bool) := saidPrefix.map (fun c d => d == c) ++ dayPattern digits

end

/-- What is left of a text that begins so. -/
def reads : List (Char → Bool) → List Char → Option (List Char)
  | [], rest => some rest
  | accepts :: more, c :: rest => if accepts c then reads more rest else none
  | _ :: _, [] => none

section

variable (digits : Digits)

/-- `_DATED` matches the text, which has no line feed. -/
def isDated (text : List Char) : Bool :=
  match reads (saidPattern digits) text with
  | some [')'] => true
  | some (';' :: rest) => rest.getLast? = some ')'
  | _ => false

/-- `_DATED.sub("", line)`. -/
def undated : List Char → List Char
  | [] => []
  | c :: rest => if isDated digits (c :: rest) then [] else c :: undated rest

/-- `line.strip()` is not empty. -/
def isBlank (line : List Char) : Bool := line.all Rag.isSpace

def listedRules (profile : List SectionView) : List (List Char) :=
  (profile.filter fun block => block.block = rulesBlockName).flatMap fun block =>
    ((splitlines block.text).filter fun line => !isBlank line).map fun line =>
      undated digits (if "- ".toList.isPrefixOf line then line.drop 2 else line)

/-- `_day`; empty where there is none. -/
def day (hit : RuleHit) : List Char :=
  let said := (hit.observedAt.getD []).take 10
  if reads (dayPattern digits) said = some [] then said else []

/-- `_dated`. -/
def dated (hit : RuleHit) (old : Option RuleHit) : List Char :=
  let before := (old.elim [] RuleHit.lineText).take aboutLineChars
  let dayBefore := old.elim [] (day digits)
  if day digits hit = [] then []
  else
    saidPrefix ++ day digits hit ++
      (if before ≠ [] ∧ dayBefore ≠ [] then
        ';' :: (" earlier: ".toList ++ before ++ ", said ".toList ++ dayBefore) else []) ++ [')']

def ruleLine (earlier : Dict String RuleHit) (hit : RuleHit) : List Char :=
  "- ".toList ++ (hit.lineText ++ dated digits hit (earlier.get? hit.recordId))

/-- The statements for which `_lines` writes a line: each in its fullest form, no line twice. -/
def written (chosen : List RuleHit) (earlier : Dict String RuleHit) : List RuleHit :=
  firstSeen (ruleLine digits earlier) (chosen.filter fun hit =>
    !(chosen.filter fun other => other.said = hit.said).any fun other =>
      hit.lineText ≠ other.lineText ∧ hit.lineText <:+: other.lineText)

def rulesBlock (lines : List (List Char)) : List SectionView :=
  if lines = [] then [] else [⟨rulesBlockName, joined lines⟩]

/-- Nothing in the rule reads like the date behind it. -/
def Clear (hit : RuleHit) : Prop :=
  ∀ front back, hit.lineText = front ++ back →
    if day digits hit = [] then isDated digits back = false
    else ∀ rest, reads (saidPattern digits) back ≠ some (';' :: rest)

end

variable {digits : Digits} {more : List (Char → Bool)} {text suffix rest : List Char}
  {hit : RuleHit} {old : Option RuleHit}

theorem reads_append (isRead : reads more text = some rest) (suffix : List Char) :
    reads more (text ++ suffix) = some (rest ++ suffix) := by
  fun_induction reads more text with
  | case1 => rw [reads.eq_def, Option.some.inj isRead]
  | case2 accepts more c text accepted ih =>
    rw [cons_append, reads, if_pos accepted, ih isRead]
  | case3 => cases isRead
  | case4 => cases isRead

theorem reads_of_append (isRead : reads more (text ++ suffix) = some rest) :
    (∃ left, reads more text = some left ∧ rest = left ++ suffix) ∨
      ∃ n, n = text.length ∧ n < more.length ∧ reads (more.drop n) suffix = some rest := by
  induction text generalizing more with
  | nil =>
    cases more with
    | nil => exact .inl ⟨[], rfl, (Option.some.inj isRead).symm⟩
    | cons => exact .inr ⟨0, rfl, Nat.succ_pos _, isRead⟩
  | cons c text ih =>
    cases more with
    | nil => exact .inl ⟨c :: text, rfl, (Option.some.inj isRead).symm⟩
    | cons accepts more =>
      rw [cons_append, reads] at isRead
      obtain ⟨accepted, isRead⟩ := Option.ite_none_right_eq_some.mp isRead
      rcases ih isRead with ⟨left, isLeft, isRest⟩ | ⟨n, isLong, isShort, isRest⟩
      · exact .inl ⟨left, by rw [reads, if_pos accepted, isLeft], isRest⟩
      · exact .inr ⟨n + 1, by rw [isLong]; rfl, Nat.succ_lt_succ isShort, isRest⟩

/-- A date does not begin in the rule and end behind it. -/
theorem not_astride {n : ℕ} (isIn : 0 < n) (isShort : n < (saidPattern digits).length)
    (behind : List Char) :
    reads ((saidPattern digits).drop n) (' ' :: '(' :: behind) = none := by
  have blank : digits.isDigit ' ' = false := digits.space (by decide)
  have bracket := digits.bracket
  change n < 17 at isShort
  interval_cases n <;> simp [saidPattern, saidPrefix, dayPattern, reads, blank, bracket]

theorem undated_eq_iff (isSuffix : suffix = [] ∨ isDated digits suffix = true) :
    undated digits (text ++ suffix) = text ↔
      ∀ front back, text = front ++ back → back ≠ [] → isDated digits (back ++ suffix) = false := by
  induction text with
  | nil =>
    refine iff_of_true ?_ fun front back isNil isBack =>
      absurd (append_eq_nil_iff.mp isNil.symm).2 isBack
    rcases isSuffix with rfl | isSuffix
    · rfl
    · cases suffix with
      | nil => rfl
      | cons c suffix => exact if_pos isSuffix
  | cons c text ih =>
    rw [cons_append, undated]
    split
    · next isDate =>
        refine iff_of_false (cons_ne_nil _ _).symm fun clear => ?_
        have := clear [] (c :: text) rfl (cons_ne_nil _ _)
        rw [cons_append, isDate] at this
        cases this
    · next notDate =>
        rw [List.cons.injEq, and_iff_right rfl, ih]
        constructor
        · rintro clear (_ | ⟨d, front⟩) back isText isBack
          · rw [← (show c :: text = back from isText)]
            exact Bool.not_eq_true _ ▸ notDate
          · exact clear front back (List.cons.inj isText).2 isBack
        · intro clear front back isText isBack
          exact clear (c :: front) back (congrArg (c :: ·) isText) isBack

theorem reads_day (isDay : day digits hit ≠ []) :
    reads (dayPattern digits) (day digits hit) = some [] := by
  rw [day] at isDay ⊢
  split at isDay
  · next isRead => rwa [if_pos isRead]
  · exact absurd rfl isDay

theorem dated_cases (digits : Digits) (hit : RuleHit) (old : Option RuleHit)
    (isDay : day digits hit ≠ []) :
    ∃ behind, dated digits hit old = ' ' :: '(' :: behind ++ [')'] ∧
      isDated digits (dated digits hit old) = true := by
  rw [dated, if_neg isDay]
  generalize (old.elim [] RuleHit.lineText).take aboutLineChars = before
  generalize old.elim [] (day digits) = dayBefore
  refine ⟨_, rfl, ?_⟩
  have isRead (rest : List Char) :
      reads (saidPattern digits) (saidPrefix ++ day digits hit ++ rest) = some rest := by
    have := reads_append (reads_day isDay) rest
    simpa [saidPattern, saidPrefix, reads] using this
  rw [append_assoc, isDated, isRead]
  by_cases isEarlier : before ≠ [] ∧ dayBefore ≠ []
  · rw [if_pos isEarlier]
    exact decide_eq_true getLast?_concat
  · simp only [if_neg isEarlier]
    rfl

theorem isDated_append {behind : List Char} {back : List Char} (isBack : back ≠ []) :
    isDated digits (back ++ (' ' :: '(' :: behind ++ [')'])) = true ↔
      ∃ rest, reads (saidPattern digits) back = some (';' :: rest) := by
  constructor
  · intro isDate
    rw [isDated] at isDate
    cases isRead : reads (saidPattern digits) (back ++ (' ' :: '(' :: behind ++ [')'])) with
    | none =>
      rw [isRead] at isDate
      cases isDate
    | some found =>
      rw [isRead] at isDate
      rcases reads_of_append isRead with ⟨left, isLeft, rfl⟩ | ⟨n, rfl, isShort, isRest⟩
      · cases left with
        | nil => simp at isDate
        | cons c left =>
          split at isDate
          · next same => simp at same
          · next same =>
              obtain ⟨rfl, -⟩ := List.cons.inj (Option.some.inj same)
              exact ⟨left, isLeft⟩
          · cases isDate
      · rw [cons_append, cons_append, not_astride (length_pos_iff.mpr isBack) isShort] at isRest
        cases isRest
  · rintro ⟨rest, isRead⟩
    rw [isDated, reads_append isRead]
    have isLast : (rest ++ ' ' :: '(' :: behind ++ [')']).getLast? = some ')' := getLast?_concat
    rw [append_assoc] at isLast
    exact decide_eq_true isLast

theorem undated_line_iff (hit : RuleHit) (old : Option RuleHit) :
    undated digits (hit.lineText ++ dated digits hit old) = hit.lineText ↔ Clear digits hit := by
  rw [Clear]
  by_cases isDay : day digits hit = []
  · have isEmpty : dated digits hit old = [] := if_pos isDay
    rw [undated_eq_iff (.inl isEmpty)]
    simp only [isEmpty, isDay, if_true, append_nil]
    refine forall_congr' fun front => forall_congr' fun back => forall_congr' fun _ => ?_
    refine ⟨fun clear => ?_, fun clear _ => clear⟩
    by_cases isBack : back = []
    · rw [isBack]; rfl
    · exact clear isBack
  · obtain ⟨behind, isDated_, isSuffix⟩ := dated_cases digits hit old isDay
    rw [undated_eq_iff (.inr isSuffix)]
    simp only [isDay, if_false, isDated_]
    refine forall_congr' fun front => forall_congr' fun back => forall_congr' fun _ => ?_
    by_cases isBack : back = []
    · rw [isBack]
      exact iff_of_true (absurd rfl ·) fun rest isRead => nomatch isRead
    · rw [← not_exists, ← isDated_append isBack, Bool.not_eq_true]
      exact forall_prop_of_true isBack

instance (line : List Char) : Decidable (Unbroken line) :=
  List.decidableBAll (fun c => isLineBreak c = false) line

theorem space_of_break {c : Char} (isBreak : isLineBreak c = true) : Rag.isSpace c = true := by
  simp only [isLineBreak, Bool.or_eq_true, beq_iff_eq] at isBreak
  rcases isBreak with
    (((((((((rfl | rfl) | rfl) | rfl) | rfl) | rfl) | rfl) | rfl) | rfl) | rfl) <;> rfl

theorem unbroken_append {first second : List Char} :
    Unbroken (first ++ second) ↔ Unbroken first ∧ Unbroken second := by
  simp only [Unbroken, mem_append, or_imp, forall_and]

theorem lineText_unbroken (hit : RuleHit) : Unbroken hit.lineText := by
  intro c member
  rcases mem_intercalate member with isSpace | ⟨run, isRun, inRun⟩
  · rw [mem_singleton.mp isSpace]
    rfl
  · have notSpace := (mem_filter.mp isRun).2
    rw [Bool.not_eq_true', any_eq_false] at notSpace
    rw [← Bool.not_eq_true]
    exact mt space_of_break (notSpace c inRun)

theorem accepted_of_reads (isRead : reads more text = some []) {c : Char} (member : c ∈ text) :
    ∃ accepts ∈ more, accepts c = true := by
  fun_induction reads more text with
  | case1 =>
    cases isRead
    cases member
  | case2 accepts more d text accepted ih =>
    rcases mem_cons.mp member with rfl | later
    · exact ⟨accepts, mem_cons_self, accepted⟩
    · obtain ⟨other, isOther, accepted⟩ := ih isRead later
      exact ⟨other, mem_cons_of_mem _ isOther, accepted⟩
  | case3 => cases isRead
  | case4 => cases isRead

theorem day_unbroken (hit : RuleHit) : Unbroken (day digits hit) := by
  intro c member
  obtain ⟨accepts, isAccepts, accepted⟩ :=
    accepted_of_reads (reads_day (ne_nil_of_mem member)) member
  have isKind : accepts = digits.isDigit ∨ accepts = (· == '-') := by
    simp only [dayPattern, mem_cons, not_mem_nil, or_false] at isAccepts
    tauto
  rw [← Bool.not_eq_true]
  intro isBreak
  rcases isKind with rfl | rfl
  · rw [digits.space (space_of_break isBreak)] at accepted
    cases accepted
  · rw [eq_of_beq accepted] at isBreak
    cases isBreak

theorem dated_unbroken (hit : RuleHit) (old : Option RuleHit) :
    Unbroken (dated digits hit old) := by
  have isPrefix : Unbroken saidPrefix := by decide
  have isBefore : Unbroken ((old.elim [] RuleHit.lineText).take aboutLineChars) := by
    intro c member
    cases old with
    | none => cases member
    | some old => exact lineText_unbroken old c (mem_of_mem_take member)
  have isDay : Unbroken (old.elim [] (day digits)) := by
    cases old with
    | none => exact nofun
    | some old => exact day_unbroken old
  have isEnd : Unbroken [')'] := by decide
  rw [dated]
  split
  · exact nofun
  · refine unbroken_append.mpr ⟨unbroken_append.mpr ⟨?_, ?_⟩, isEnd⟩
    · exact unbroken_append.mpr ⟨isPrefix, day_unbroken hit⟩
    · split
      · exact unbroken_append.mpr ⟨unbroken_append.mpr ⟨unbroken_append.mpr
          ⟨show Unbroken "; earlier: ".toList by decide, isBefore⟩, by decide⟩, isDay⟩
      · exact nofun

theorem ruleLine_unbroken (earlier : Dict String RuleHit) (hit : RuleHit) :
    Unbroken (ruleLine digits earlier hit) :=
  unbroken_append.mpr
    ⟨by decide, unbroken_append.mpr ⟨lineText_unbroken hit, dated_unbroken hit _⟩⟩

theorem splitlines_one {line : List Char} (isLine : line ≠ []) (unbroken : Unbroken line) :
    splitlines line = [line] := by
  obtain ⟨front, c, rfl⟩ := (eq_nil_or_concat' line).resolve_left isLine
  have isLast : splitlines [c] = [[c]] := splitlines_cons (unbroken c (by simp)) []
  exact splitlines_append (unbroken_append.mp unbroken).1 isLast

theorem splitlines_joined {lines : List (List Char)}
    (isLine : ∀ line ∈ lines, line ≠ [] ∧ Unbroken line) : splitlines (joined lines) = lines := by
  induction lines with
  | nil => rfl
  | cons line lines ih =>
    obtain ⟨⟨notEmpty, unbroken⟩, later⟩ := forall_mem_cons.mp isLine
    cases lines with
    | nil =>
      rw [joined, intercalate_singleton]
      exact splitlines_one notEmpty unbroken
    | cons next lines =>
      rw [joined, intercalate_cons_cons, append_assoc]
      exact (splitlines_line unbroken _).trans (congrArg (line :: ·) (ih later))

theorem listedRules_rulesBlock (earlier : Dict String RuleHit) (hits : List RuleHit) :
    listedRules digits (rulesBlock (hits.map (ruleLine digits earlier))) = hits.map fun hit =>
        undated digits (hit.lineText ++ dated digits hit (earlier.get? hit.recordId)) := by
  have isLine : ∀ line ∈ hits.map (ruleLine digits earlier), line ≠ [] ∧ Unbroken line := by
    intro line member
    obtain ⟨hit, -, rfl⟩ := mem_map.mp member
    exact ⟨cons_ne_nil _ _, ruleLine_unbroken earlier hit⟩
  have notBlank : ∀ line ∈ hits.map (ruleLine digits earlier), (!isBlank line) = true := by
    intro line member
    obtain ⟨hit, -, rfl⟩ := mem_map.mp member
    rfl
  cases hits with
  | nil => rfl
  | cons first hits =>
    rw [rulesBlock, if_neg (by exact cons_ne_nil _ _), listedRules,
      filter_cons_of_pos (by exact decide_eq_true rfl), filter_nil, flatMap_cons,
      flatMap_nil, append_nil, splitlines_joined isLine,
      filter_eq_self.mpr notBlank, map_map]
    rfl

/-- What is read of the section is the text of each rule, in order, just where nothing in a
rule reads like the date behind it. -/
theorem listed_rules_iff (digits : Digits) (chosen : List RuleHit) (earlier : Dict String RuleHit) :
    listedRules digits (rulesBlock
        (((written digits chosen earlier).map (ruleLine digits earlier)).take rulesMax)) =
      ((written digits chosen earlier).take rulesMax).map RuleHit.lineText ↔
    ∀ hit ∈ (written digits chosen earlier).take rulesMax, Clear digits hit := by
  rw [← map_take, listedRules_rulesBlock, map_inj_left]
  exact forall₂_congr fun hit _ => undated_line_iff hit _

def asciiDigits : Digits where
  isDigit := Char.isDigit
  space := by
    intro c isSpace
    have isNumber : c.isDigit = true → 48 ≤ c.toNat ∧ c.toNat ≤ 57 := by
      simp [Char.isDigit, UInt32.le_iff_toNat_le]
    rw [← Bool.not_eq_true]
    intro isDigit
    have bounds := isNumber isDigit
    simp [Rag.isSpace] at isSpace
    omega
  bracket := rfl

/-- A rule that quotes a date as the section writes it. -/
theorem quoted_date_is_cut :
    ¬∀ (digits : Digits) (chosen : List RuleHit) (earlier : Dict String RuleHit),
      listedRules digits (rulesBlock
          (((written digits chosen earlier).map (ruleLine digits earlier)).take rulesMax)) =
        ((written digits chosen earlier).take rulesMax).map RuleHit.lineText := by
  intro always
  let hit : RuleHit := ⟨"r1", "No fuel (said 2026-11-02; ok)".toList, "2026-11-03".toList, []⟩
  exact absurd (always asciiDigits [hit] ∅) (by decide +kernel)

end MemoryService.Context
