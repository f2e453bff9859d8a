import Mathlib.Data.List.Infix

/-!
# Patterns with backtracking

A pattern is tried at a cursor, which has what lies before it and what lies after it.
-/

namespace MemoryService.Foundation

open List

universe u

inductive Regex (α : Type u) where
  | empty
  | one (accepts : α → Bool)
  | seq (first second : Regex α)
  | alt (first second : Regex α)
  /-- as often as it can be, then less often -/
  | star (body : Regex α)
  | group (number : ℕ) (body : Regex α)
  /-- a condition on what lies before, nearest first, and on what lies after -/
  | look (holds : List α → List α → Bool)
  | ahead (wanted : Bool) (body : Regex α)

structure Cursor (α : Type u) where
  /-- nearest first -/
  before : List α
  after : List α
  groups : List (ℕ × List α) := []

variable {α : Type u}

namespace Cursor

def group (cursor : Cursor α) (number : ℕ) : Option (List α) := cursor.groups.lookup number

def taken (cursor ended : Cursor α) : List α :=
  cursor.after.take (cursor.after.length - ended.after.length)

end Cursor

namespace Regex

def repeated (step : Cursor α → List (Cursor α)) : ℕ → Cursor α → List (Cursor α)
  | 0, cursor => [cursor]
  | fuel + 1, cursor =>
    ((step cursor).filter fun next => next.after.length < cursor.after.length).flatMap
      (repeated step fuel) ++ [cursor]

def run : Regex α → Cursor α → List (Cursor α)
  | .empty, cursor => [cursor]
  | .one accepts, cursor =>
    match cursor.after with
    | [] => []
    | x :: rest =>
      if accepts x then [{ cursor with before := x :: cursor.before, after := rest }] else []
  | .seq first second, cursor => (first.run cursor).flatMap second.run
  | .alt first second, cursor => first.run cursor ++ second.run cursor
  | .star body, cursor => repeated body.run cursor.after.length cursor
  | .group number body, cursor =>
    (body.run cursor).map fun ended =>
      { ended with groups := (number, cursor.taken ended) :: ended.groups }
  | .look holds, cursor => if holds cursor.before cursor.after then [cursor] else []
  | .ahead wanted body, cursor =>
    match body.run cursor with
    | [] => if wanted then [] else [cursor]
    | ended :: _ => if wanted then [{ cursor with groups := ended.groups }] else []

def opt (body : Regex α) : Regex α := .alt body .empty

def plus (body : Regex α) : Regex α := .seq body (.star body)

def times : ℕ → Regex α → Regex α
  | 0, _ => .empty
  | count + 1, body => .seq body (times count body)

def all : List (Regex α) → Regex α
  | [] => .empty
  | [last] => last
  | first :: rest => .seq first (all rest)

/-- One of several, tried in their order; there is at least one. -/
def any : Regex α → List (Regex α) → Regex α
  | only, [] => only
  | first, second :: rest => .alt first (any second rest)

def Lang : Regex α → List α → Prop
  | .empty, text => text = []
  | .one accepts, text => ∃ x, text = [x] ∧ accepts x = true
  | .seq first second, text => ∃ front back, text = front ++ back ∧ first.Lang front ∧
    second.Lang back
  | .alt first second, text => first.Lang text ∨ second.Lang text
  | .star body, text => ∃ parts : List (List α), text = parts.flatten ∧ ∀ part ∈ parts,
    body.Lang part
  | .group _ body, text => body.Lang text
  | .look _, text => text = []
  | .ahead _ _, text => text = []

def takesSome : Regex α → Bool
  | .empty => false
  | .one _ => true
  | .seq first second => first.takesSome || second.takesSome
  | .alt first second => first.takesSome && second.takesSome
  | .star _ => false
  | .group _ body => body.takesSome
  | .look _ => false
  | .ahead _ _ => false

theorem Lang.nonempty {r : Regex α} {text : List α} (inLang : r.Lang text)
    (takesSome : r.takesSome = true) : text ≠ [] := by
  induction r generalizing text with
  | empty => cases takesSome
  | one _ =>
    obtain ⟨x, rfl, -⟩ := inLang
    exact cons_ne_nil x []
  | seq first second firstHypothesis secondHypothesis =>
    obtain ⟨front, back, rfl, isFront, isBack⟩ := inLang
    intro isEmpty
    obtain ⟨frontEmpty, backEmpty⟩ := append_eq_nil_iff.mp isEmpty
    rcases Bool.or_eq_true_iff.mp takesSome with inFront | inBack
    · exact firstHypothesis isFront inFront frontEmpty
    · exact secondHypothesis isBack inBack backEmpty
  | alt first second firstHypothesis secondHypothesis =>
    obtain ⟨inFirst, inSecond⟩ := Bool.and_eq_true_iff.mp takesSome
    rcases inLang with isFirst | isSecond
    · exact firstHypothesis isFirst inFirst
    · exact secondHypothesis isSecond inSecond
  | star _ _ => cases takesSome
  | group _ body ih => exact ih inLang takesSome
  | look _ => cases takesSome
  | ahead _ _ _ => cases takesSome

structure Takes (cursor : Cursor α) (text : List α) (ended : Cursor α) : Prop where
  after : cursor.after = text ++ ended.after
  before : ended.before = text.reverse ++ cursor.before

variable {cursor middle ended : Cursor α} {text more : List α} {r : Regex α}

theorem Takes.refl (cursor : Cursor α) : Takes cursor [] cursor := ⟨rfl, rfl⟩

theorem Takes.trans (first : Takes cursor text middle) (second : Takes middle more ended) :
    Takes cursor (text ++ more) ended := by
  constructor
  · rw [first.after, second.after, append_assoc]
  · rw [second.before, first.before, reverse_append, append_assoc]

theorem Takes.taken (takes : Takes cursor text ended) : cursor.taken ended = text := by
  have length : cursor.after.length = text.length + ended.after.length := by
    rw [takes.after, length_append]
  rw [Cursor.taken, length, Nat.add_sub_cancel, takes.after, take_left]

theorem repeated_takes {step : Cursor α → List (Cursor α)} {holds : List α → Prop}
    (steps : ∀ {cursor ended : Cursor α}, ended ∈ step cursor →
      ∃ text, Takes cursor text ended ∧ holds text) :
    ∀ {fuel : ℕ} {cursor ended : Cursor α}, ended ∈ repeated step fuel cursor →
      ∃ parts : List (List α), Takes cursor parts.flatten ended ∧ ∀ part ∈ parts, holds part
  | 0, cursor, ended, member => by
    rw [mem_singleton.mp member]
    exact ⟨[], Takes.refl cursor, fun _ isPart => by cases isPart⟩
  | fuel + 1, cursor, ended, member => by
    rcases mem_append.mp member with later | stays
    · obtain ⟨next, isNext, isLater⟩ := mem_flatMap.mp later
      obtain ⟨text, takes, isText⟩ := steps (mem_filter.mp isNext).1
      obtain ⟨parts, rest, areParts⟩ := repeated_takes steps isLater
      refine ⟨text :: parts, takes.trans rest, ?_⟩
      intro part isPart
      rcases mem_cons.mp isPart with rfl | isOther
      · exact isText
      · exact areParts part isOther
    · rw [mem_singleton.mp stays]
      exact ⟨[], Takes.refl cursor, fun _ isPart => by cases isPart⟩

theorem run_takes (matched : ended ∈ r.run cursor) :
    ∃ text, Takes cursor text ended ∧ r.Lang text := by
  induction r generalizing cursor ended with
  | empty =>
    rw [mem_singleton.mp matched]
    exact ⟨[], Takes.refl cursor, rfl⟩
  | one accepts =>
    obtain ⟨before, after, groups⟩ := cursor
    cases after with
    | nil => cases matched
    | cons x rest =>
      simp only [run] at matched
      split at matched
      case isTrue accepted =>
        rw [mem_singleton.mp matched]
        exact ⟨[x], ⟨rfl, rfl⟩, x, rfl, accepted⟩
      case isFalse _ => cases matched
  | seq first second firstHypothesis secondHypothesis =>
    obtain ⟨middle, isMiddle, isEnded⟩ := mem_flatMap.mp matched
    obtain ⟨front, takesFront, isFront⟩ := firstHypothesis isMiddle
    obtain ⟨back, takesBack, isBack⟩ := secondHypothesis isEnded
    exact ⟨front ++ back, takesFront.trans takesBack, front, back, rfl, isFront, isBack⟩
  | alt first second firstHypothesis secondHypothesis =>
    rcases mem_append.mp matched with isFirst | isSecond
    · obtain ⟨text, takes, isText⟩ := firstHypothesis isFirst
      exact ⟨text, takes, .inl isText⟩
    · obtain ⟨text, takes, isText⟩ := secondHypothesis isSecond
      exact ⟨text, takes, .inr isText⟩
  | star body ih =>
    obtain ⟨parts, takes, areParts⟩ := repeated_takes ih matched
    exact ⟨parts.flatten, takes, parts, rfl, areParts⟩
  | group number body ih =>
    obtain ⟨inner, isInner, rfl⟩ := mem_map.mp matched
    obtain ⟨text, takes, isText⟩ := ih isInner
    exact ⟨text, ⟨takes.after, takes.before⟩, isText⟩
  | look holds =>
    rw [run] at matched
    split at matched
    · rw [mem_singleton.mp matched]
      exact ⟨[], Takes.refl cursor, rfl⟩
    · cases matched
  | ahead wanted body _ =>
    rw [run] at matched
    refine ⟨[], ?_, rfl⟩
    split at matched
    · split at matched
      · cases matched
      · rw [mem_singleton.mp matched]
        exact Takes.refl cursor
    · split at matched
      · rw [mem_singleton.mp matched]
        exact ⟨rfl, rfl⟩
      · cases matched

variable {first other body : Regex α} {rest : List (Regex α)}

theorem mem_run_any :
    ended ∈ (any first rest).run cursor ↔ ∃ chosen ∈ first :: rest, ended ∈ chosen.run cursor := by
  induction rest generalizing first with
  | nil => simp [any]
  | cons second rest ih =>
    rw [any, run, mem_append, ih, exists_mem_cons_iff (a := first)]

theorem eq_of_mem_run_look {holds : List α → List α → Bool}
    (matched : ended ∈ (look holds).run cursor) : ended = cursor := by
  rw [run] at matched
  split at matched
  · exact mem_singleton.mp matched
  · cases matched

def bodies (number : ℕ) : Regex α → List (Regex α)
  | .empty => []
  | .one _ => []
  | .seq first second => bodies number first ++ bodies number second
  | .alt first second => bodies number first ++ bodies number second
  | .star body => bodies number body
  | .group other body =>
    if other = number then body :: bodies number body else bodies number body
  | .look _ => []
  | .ahead _ body => bodies number body

def sets (number : ℕ) : Regex α → Bool
  | .empty => false
  | .one _ => false
  | .seq first second => first.sets number || second.sets number
  | .alt first second => first.sets number && second.sets number
  | .star _ => false
  | .group other body => other = number || body.sets number
  | .look _ => false
  | .ahead wanted body => wanted && body.sets number

def BodyText (r : Regex α) (number : ℕ) (text : List α) : Prop :=
  ∃ body ∈ r.bodies number, body.Lang text

variable {number : ℕ}

theorem BodyText.mono (within : r.bodies number ⊆ other.bodies number)
    (isText : r.BodyText number text) : other.BodyText number text := by
  obtain ⟨body, isBody, inLang⟩ := isText
  exact ⟨body, within isBody, inLang⟩

def Grouped (r : Regex α) (number : ℕ) (cursor ended : Cursor α) : Prop :=
  ended.group number = cursor.group number ∨
    ∃ text, ended.group number = some text ∧ r.BodyText number text

theorem Grouped.mono (within : r.bodies number ⊆ other.bodies number)
    (grouped : r.Grouped number cursor ended) : other.Grouped number cursor ended := by
  rcases grouped with same | ⟨text, isText, inLang⟩
  · exact .inl same
  · exact .inr ⟨text, isText, inLang.mono within⟩

theorem Grouped.trans (first : r.Grouped number cursor middle)
    (second : r.Grouped number middle ended) : r.Grouped number cursor ended := by
  rcases second with same | own
  · rw [Grouped, same]
    exact first
  · exact .inr own

theorem repeated_grouped
    (steps : ∀ {cursor ended : Cursor α}, ended ∈ body.run cursor →
      body.Grouped number cursor ended) :
    ∀ {fuel : ℕ} {cursor ended : Cursor α}, ended ∈ repeated body.run fuel cursor →
      body.Grouped number cursor ended
  | 0, cursor, ended, member => by
    rw [mem_singleton.mp member]
    exact .inl rfl
  | fuel + 1, cursor, ended, member => by
    rcases mem_append.mp member with later | stays
    · obtain ⟨next, isNext, isLater⟩ := mem_flatMap.mp later
      exact (steps (mem_filter.mp isNext).1).trans (repeated_grouped steps isLater)
    · rw [mem_singleton.mp stays]
      exact .inl rfl

theorem group_cons (cursor : Cursor α) (other : ℕ) (text : List α) (groups : List (ℕ × List α)) :
    Cursor.group { cursor with groups := (other, text) :: groups } number =
      if number = other then some text else Cursor.group { cursor with groups } number := by
  rw [Cursor.group, lookup_cons]
  by_cases same : number = other
  · rw [if_pos same, beq_iff_eq.mpr same]
  · rw [if_neg same, beq_eq_false_iff_ne.mpr same]
    rfl

theorem run_grouped (matched : ended ∈ r.run cursor) : r.Grouped number cursor ended := by
  induction r generalizing cursor ended with
  | empty =>
    rw [mem_singleton.mp matched]
    exact .inl rfl
  | one accepts =>
    obtain ⟨before, after, groups⟩ := cursor
    cases after with
    | nil => cases matched
    | cons x rest =>
      simp only [run] at matched
      split at matched
      · rw [mem_singleton.mp matched]
        exact .inl rfl
      · cases matched
  | seq first second firstHypothesis secondHypothesis =>
    obtain ⟨middle, isMiddle, isEnded⟩ := mem_flatMap.mp matched
    have front : (seq first second).Grouped number cursor middle :=
      (firstHypothesis isMiddle).mono (subset_append_left _ _)
    have back : (seq first second).Grouped number middle ended :=
      (secondHypothesis isEnded).mono (subset_append_right _ _)
    exact front.trans back
  | alt first second firstHypothesis secondHypothesis =>
    rcases mem_append.mp matched with isFirst | isSecond
    · exact (firstHypothesis isFirst).mono (subset_append_left _ _)
    · exact (secondHypothesis isSecond).mono (subset_append_right _ _)
  | star body ih => exact repeated_grouped ih matched
  | group other body ih =>
    obtain ⟨inner, isInner, rfl⟩ := mem_map.mp matched
    obtain ⟨text, takes, isText⟩ := run_takes isInner
    rw [Grouped, group_cons, takes.taken]
    by_cases same : number = other
    · rw [if_pos same]
      refine .inr ⟨text, rfl, body, ?_, isText⟩
      rw [bodies, if_pos same.symm]
      exact mem_cons_self
    · rw [if_neg same]
      refine (ih isInner).mono ?_
      rw [bodies, if_neg (Ne.symm same)]
      exact List.Subset.refl _
  | look holds =>
    rw [run] at matched
    split at matched
    · rw [mem_singleton.mp matched]
      exact .inl rfl
    · cases matched
  | ahead wanted body ih =>
    rw [run] at matched
    split at matched
    case h_1 _ =>
      split at matched
      · cases matched
      · rw [mem_singleton.mp matched]
        exact .inl rfl
    case h_2 inner _ found =>
      split at matched
      · rw [mem_singleton.mp matched]
        have isInner : inner ∈ body.run cursor := by
          rw [found]
          exact mem_cons_self
        have grouped : body.Grouped number cursor inner := ih isInner
        exact grouped
      · cases matched

theorem run_sets (sets : r.sets number = true) (matched : ended ∈ r.run cursor) :
    ∃ text, ended.group number = some text ∧ r.BodyText number text := by
  induction r generalizing cursor ended with
  | empty => cases sets
  | one _ => cases sets
  | seq first second firstHypothesis secondHypothesis =>
    obtain ⟨middle, isMiddle, isEnded⟩ := mem_flatMap.mp matched
    rcases Bool.or_eq_true_iff.mp sets with setsFirst | setsSecond
    · obtain ⟨text, isText, inLang⟩ := firstHypothesis setsFirst isMiddle
      rcases @run_grouped _ _ _ _ number isEnded with same | ⟨more, isMore, inMore⟩
      · exact ⟨text, same.trans isText, inLang.mono (subset_append_left _ _)⟩
      · exact ⟨more, isMore, inMore.mono (subset_append_right _ _)⟩
    · obtain ⟨text, isText, inLang⟩ := secondHypothesis setsSecond isEnded
      exact ⟨text, isText, inLang.mono (subset_append_right _ _)⟩
  | alt first second firstHypothesis secondHypothesis =>
    obtain ⟨setsFirst, setsSecond⟩ := Bool.and_eq_true_iff.mp sets
    rcases mem_append.mp matched with isFirst | isSecond
    · obtain ⟨text, isText, inLang⟩ := firstHypothesis setsFirst isFirst
      exact ⟨text, isText, inLang.mono (subset_append_left _ _)⟩
    · obtain ⟨text, isText, inLang⟩ := secondHypothesis setsSecond isSecond
      exact ⟨text, isText, inLang.mono (subset_append_right _ _)⟩
  | star _ _ => cases sets
  | group other body ih =>
    obtain ⟨inner, isInner, rfl⟩ := mem_map.mp matched
    obtain ⟨text, takes, isText⟩ := run_takes isInner
    rw [group_cons, takes.taken]
    by_cases same : number = other
    · rw [if_pos same]
      refine ⟨text, rfl, body, ?_, isText⟩
      rw [bodies, if_pos same.symm]
      exact mem_cons_self
    · rw [if_neg same]
      have setsInner : body.sets number = true := by
        rcases Bool.or_eq_true_iff.mp sets with isNumber | inBody
        · exact absurd (of_decide_eq_true isNumber).symm same
        · exact inBody
      obtain ⟨own, isOwn, inLang⟩ := ih setsInner isInner
      refine ⟨own, isOwn, inLang.mono ?_⟩
      rw [bodies, if_neg (Ne.symm same)]
      exact List.Subset.refl _
  | look _ => cases sets
  | ahead wanted body ih =>
    obtain ⟨isWanted, setsInner⟩ := Bool.and_eq_true_iff.mp sets
    rw [run, isWanted] at matched
    split at matched
    case h_1 _ => cases matched
    case h_2 inner _ found =>
      rw [mem_singleton.mp matched]
      have isInner : inner ∈ body.run cursor := by
        rw [found]
        exact mem_cons_self
      have own : ∃ text, inner.group number = some text ∧ body.BodyText number text :=
        ih setsInner isInner
      exact own

end Regex

structure Match (α : Type u) where
  before : List α
  text : List α
  after : List α
  groups : List (ℕ × List α)

namespace Match

def start (found : Match α) : ℕ := found.before.length

def stop (found : Match α) : ℕ := found.before.length + found.text.length

def group (found : Match α) (number : ℕ) : Option (List α) := found.groups.lookup number

end Match

namespace Regex

variable (r : Regex α)

def matchTo (before after : List α) (ended : Cursor α) : Match α where
  before := before
  text := Cursor.taken { before, after } ended
  after := ended.after
  groups := ended.groups

def matchAt (before after : List α) : Option (Match α) :=
  match r.run { before, after } with
  | [] => none
  | ended :: _ =>
    if ended.after.length < after.length then some (matchTo before after ended) else none

def scan (before : List α) : (after : List α) → (skip : ℕ) → List (Match α)
  | [], _ => []
  | x :: rest, skip + 1 => scan (x :: before) rest skip
  | x :: rest, 0 =>
    match r.matchAt before (x :: rest) with
    | none => scan (x :: before) rest 0
    | some found => found :: scan (x :: before) rest (found.text.length - 1)

def finditer (text : List α) : List (Match α) := r.scan [] text 0

def subFrom (new : List α) (before : List α) : (after : List α) → (skip : ℕ) → List α
  | [], _ => []
  | x :: rest, skip + 1 => subFrom new (x :: before) rest skip
  | x :: rest, 0 =>
    match r.matchAt before (x :: rest) with
    | none => x :: subFrom new (x :: before) rest 0
    | some found => new ++ subFrom new (x :: before) rest (found.text.length - 1)

def sub (new text : List α) : List α := r.subFrom new [] text 0

variable {r} {before after text : List α} {found : Match α} {number : ℕ}

/-- A match takes some text of the language, and its groups are those of the cursor it ends in. -/
structure Found (r : Regex α) (found : Match α) : Prop where
  nonempty : found.text ≠ []
  inLang : r.Lang found.text
  ended : ∃ ended ∈ r.run { before := found.before, after := found.text ++ found.after },
    ended.groups = found.groups

theorem found_of_matchAt (matched : r.matchAt before after = some found) :
    r.Found found ∧ found.before = before ∧ found.text ++ found.after = after := by
  rw [matchAt] at matched
  split at matched
  case h_1 _ => cases matched
  case h_2 ended _ isFirst =>
    obtain ⟨shorter, matched⟩ := Option.ite_none_right_eq_some.mp matched
    have isEnded : ended ∈ r.run { before, after } := by
      rw [isFirst]
      exact mem_cons_self
    obtain ⟨text, takes, inLang⟩ := run_takes isEnded
    have taken := takes.taken
    cases matched
    have whole : text ++ ended.after = after := takes.after.symm
    refine ⟨⟨?_, ?_, ended, ?_, rfl⟩, rfl, ?_⟩
    · intro isEmpty
      rw [matchTo, taken] at isEmpty
      rw [← whole, show text = [] from isEmpty] at shorter
      simp at shorter
    · rw [matchTo, taken]
      exact inLang
    · simp only [matchTo, taken, whole]
      exact isEnded
    · rw [matchTo, taken]
      exact whole

theorem mem_scan {skip : ℕ} (member : found ∈ r.scan before after skip) :
    r.Found found ∧ before.length + skip ≤ found.start ∧
      found.before.reverse ++ found.text ++ found.after = before.reverse ++ after := by
  induction after generalizing before skip with
  | nil => cases member
  | cons x rest ih =>
    have shifted : (x :: before).reverse ++ rest = before.reverse ++ x :: rest := by simp
    cases skip with
    | succ skip =>
      obtain ⟨isFound, behind, whole⟩ := ih member
      rw [length_cons] at behind
      exact ⟨isFound, by omega, whole.trans shifted⟩
    | zero =>
      rw [scan] at member
      split at member
      case h_1 _ =>
        obtain ⟨isFound, behind, whole⟩ := ih member
        rw [length_cons] at behind
        exact ⟨isFound, by omega, whole.trans shifted⟩
      case h_2 first isFirst =>
        rcases mem_cons.mp member with rfl | later
        · obtain ⟨isFound, sameBefore, whole⟩ := found_of_matchAt isFirst
          refine ⟨isFound, ?_, ?_⟩
          · rw [Match.start, sameBefore]
            omega
          · rw [append_assoc, whole, sameBefore]
        · obtain ⟨isFound, behind, whole⟩ := ih later
          rw [length_cons] at behind
          exact ⟨isFound, by omega, whole.trans shifted⟩

theorem scan_pairwise {skip : ℕ} :
    (r.scan before after skip).Pairwise fun first second => first.stop ≤ second.start := by
  induction after generalizing before skip with
  | nil => exact List.Pairwise.nil
  | cons x rest ih =>
    cases skip with
    | succ skip => exact ih
    | zero =>
      rw [scan]
      split
      case h_1 _ => exact ih
      case h_2 first isFirst =>
        refine pairwise_cons.mpr ⟨fun second isLater => ?_, ih⟩
        obtain ⟨isFound, sameBefore, -⟩ := found_of_matchAt isFirst
        obtain ⟨-, behind, -⟩ := mem_scan isLater
        have someText : 0 < first.text.length := length_pos_iff.mpr isFound.nonempty
        rw [length_cons] at behind
        rw [Match.stop, sameBefore]
        omega

theorem mem_finditer (member : found ∈ r.finditer text) :
    r.Found found ∧ found.before.reverse ++ found.text ++ found.after = text := by
  obtain ⟨isFound, -, whole⟩ := mem_scan member
  exact ⟨isFound, whole⟩

section

variable (isFound : r.Found found)
include isFound

theorem Found.group (isGroup : found.group number = some taken) : r.BodyText number taken := by
  obtain ⟨ended, matched, same⟩ := isFound.ended
  have sameGroup : ended.group number = found.group number := by
    rw [Cursor.group, Match.group, same]
  rcases @run_grouped _ _ _ _ number matched with noneBefore | ⟨other, isOther, inLang⟩
  · rw [sameGroup, isGroup] at noneBefore
    cases noneBefore
  · rw [sameGroup, isGroup] at isOther
    rw [Option.some.inj isOther]
    exact inLang

theorem Found.sets (sets : r.sets number = true) :
    ∃ taken, found.group number = some taken ∧ r.BodyText number taken := by
  obtain ⟨ended, matched, same⟩ := isFound.ended
  obtain ⟨taken, isTaken, inLang⟩ := run_sets sets matched
  rw [Cursor.group, same] at isTaken
  exact ⟨taken, isTaken, inLang⟩

theorem Found.takesBody (only : r.bodies number = [body])
    (isGroup : found.group number = some taken) : body.Lang taken := by
  obtain ⟨other, isOther, inLang⟩ := isFound.group isGroup
  rw [only, mem_singleton] at isOther
  exact isOther ▸ inLang

theorem Found.setsBody (sets : r.sets number = true) (only : r.bodies number = [body]) :
    ∃ taken, found.group number = some taken ∧ body.Lang taken := by
  obtain ⟨taken, isGroup, -⟩ := isFound.sets sets
  exact ⟨taken, isGroup, isFound.takesBody only isGroup⟩

end

/-- The groups are those of some match of the pattern. -/
def Leaves (r : Regex α) (found : Match α) : Prop :=
  ∃ cursor ended : Cursor α, cursor.groups = [] ∧ ended ∈ r.run cursor ∧ ended.groups = found.groups

theorem Found.chosen {opens closes : List α → List α → Bool}
    (isFound : (all [look opens, any first rest, look closes]).Found found) :
    ∃ chosen ∈ first :: rest, chosen.Leaves found := by
  obtain ⟨ended, matched, same⟩ := isFound.ended
  obtain ⟨opened, isOpened, matched⟩ := mem_flatMap.mp matched
  obtain ⟨closed, isClosed, isEnded⟩ := mem_flatMap.mp matched
  obtain ⟨chosen, isChosen, isLeft⟩ := mem_run_any.mp isClosed
  exact ⟨chosen, isChosen, opened, closed, congrArg Cursor.groups (eq_of_mem_run_look isOpened),
    isLeft, by rw [← same, eq_of_mem_run_look isEnded]⟩

theorem Leaves.setsBody (leaves : r.Leaves found)
    (sets : r.sets number = true) (only : r.bodies number = [body]) :
    ∃ taken, found.group number = some taken ∧ body.Lang taken := by
  obtain ⟨cursor, ended, -, matched, same⟩ := leaves
  obtain ⟨taken, isTaken, other, isOther, inLang⟩ := run_sets sets matched
  rw [only, mem_singleton] at isOther
  rw [Cursor.group, same] at isTaken
  exact ⟨taken, isTaken, isOther ▸ inLang⟩

theorem Leaves.unset (leaves : r.Leaves found) (noneThere : r.bodies number = []) :
    found.group number = none := by
  obtain ⟨cursor, ended, isNone, matched, same⟩ := leaves
  rcases @run_grouped _ _ _ _ number matched with unchanged | ⟨taken, -, body, isBody, -⟩
  · rw [Cursor.group, Cursor.group, same, isNone] at unchanged
    exact unchanged
  · rw [noneThere] at isBody
    cases isBody

end Regex

end MemoryService.Foundation
