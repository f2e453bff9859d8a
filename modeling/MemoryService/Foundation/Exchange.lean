import Mathlib.Data.List.TakeWhile

/-!
# Calls and their results in a log

The entries of a log make calls, and some are results, each naming the call it answers.
-/

namespace MemoryService.Foundation

open List

section

variable {α ι : Type} (isResult : α → Bool) (calls : α → List ι) (answers : α → Option ι)

/-- Every call of an entry is answered before anything else follows. -/
def Answered (log : List α) : Prop :=
  ∀ before entry after, log = before ++ entry :: after → ∀ call ∈ calls entry,
    ∃ result ∈ after.takeWhile isResult, answers result = some call

def Called (log : List α) : Prop :=
  ∀ before result after, log = before ++ result :: after → isResult result = true →
    ∃ earlier entry between, before = earlier ++ entry :: between ∧
      (∃ call ∈ calls entry, answers result = some call) ∧
      ∀ other ∈ between, isResult other = true

structure Paired (log : List α) : Prop where
  answered : Answered isResult calls answers log
  called : Called isResult calls answers log

variable {isResult calls answers}

theorem mem_takeWhile_append {entry : α} {xs : List α} (ys : List α)
    (member : entry ∈ xs.takeWhile isResult) : entry ∈ (xs ++ ys).takeWhile isResult := by
  rw [takeWhile_append]
  split
  · exact mem_append_left _ (takeWhile_subset isResult member)
  · exact member

namespace Paired

theorem nil : Paired isResult calls answers [] where
  answered before entry after split := absurd split (by simp)
  called before result after split := absurd split (by simp)

theorem append {xs ys : List α} (first : Paired isResult calls answers xs)
    (second : Paired isResult calls answers ys) : Paired isResult calls answers (xs ++ ys) where
  answered := by
    intro before entry after split call isCall
    rcases append_eq_append_iff.mp split with ⟨rest, isBefore, ofYs⟩ | ⟨rest, ofXs, isRest⟩
    · exact second.answered rest entry after ofYs call isCall
    · cases rest with
      | nil => exact second.answered [] entry after isRest.symm call isCall
      | cons head rest =>
        obtain ⟨isHead, isAfter⟩ := List.cons.inj isRest
        rw [← isHead] at ofXs
        obtain ⟨result, member, answer⟩ := first.answered before entry rest ofXs call isCall
        rw [isAfter]
        exact ⟨result, mem_takeWhile_append ys member, answer⟩
  called := by
    intro before result after split isOne
    rcases append_eq_append_iff.mp split with ⟨rest, isBefore, ofYs⟩ | ⟨rest, ofXs, isRest⟩
    · obtain ⟨earlier, entry, between, isSplit, made, only⟩ :=
        second.called rest result after ofYs isOne
      refine ⟨xs ++ earlier, entry, between, ?_, made, only⟩
      rw [isBefore, isSplit, append_assoc]
    · cases rest with
      | nil =>
        obtain ⟨earlier, entry, between, isSplit, -, -⟩ :=
          second.called [] result after isRest.symm isOne
        cases earlier <;> cases isSplit
      | cons head rest =>
        obtain ⟨isHead, -⟩ := List.cons.inj isRest
        rw [← isHead] at ofXs
        exact first.called before result rest ofXs isOne

theorem flatten {logs : List (List α)} (each : ∀ log ∈ logs, Paired isResult calls answers log) :
    Paired isResult calls answers logs.flatten := by
  induction logs with
  | nil => exact nil
  | cons log logs ih =>
    rw [flatten_cons]
    apply append (each log mem_cons_self)
    exact ih fun other member => each other (mem_cons_of_mem log member)

theorem exchange {head : α} {results : List α} (notResult : isResult head = false)
    (only : ∀ result ∈ results, isResult result = true)
    (made : ∀ result ∈ results, ∃ call ∈ calls head, answers result = some call)
    (complete : ∀ call ∈ calls head, ∃ result ∈ results, answers result = some call)
    (quiet : ∀ result ∈ results, calls result = []) :
    Paired isResult calls answers (head :: results) where
  answered := by
    intro before entry after split call isCall
    cases before with
    | nil =>
      obtain ⟨isHead, isAfter⟩ := List.cons.inj split
      rw [← isHead] at isCall
      rw [← isAfter, takeWhile_eq_self_iff.mpr only]
      exact complete call isCall
    | cons first before =>
      have member : entry ∈ results := by
        rw [(List.cons.inj split).2]
        exact mem_append_right before mem_cons_self
      rw [quiet entry member] at isCall
      cases isCall
  called := by
    intro before result after split isOne
    cases before with
    | nil =>
      rw [← (List.cons.inj split).1, notResult] at isOne
      cases isOne
    | cons first before =>
      obtain ⟨isHead, isRest⟩ := List.cons.inj split
      have member : result ∈ results := by
        rw [isRest]
        exact mem_append_right before mem_cons_self
      refine ⟨[], first, before, rfl, ?_, ?_⟩
      · rw [← isHead]
        exact made result member
      · intro other isOther
        apply only
        rw [isRest]
        exact mem_append_left _ isOther

theorem of_quiet {log : List α} (quiet : ∀ entry ∈ log, isResult entry = false ∧ calls entry = []) :
    Paired isResult calls answers log where
  answered := by
    intro before entry after split call isCall
    have member : entry ∈ log := split ▸ mem_append_right before mem_cons_self
    rw [(quiet entry member).2] at isCall
    cases isCall
  called := by
    intro before result after split isOne
    have member : result ∈ log := split ▸ mem_append_right before mem_cons_self
    rw [(quiet result member).1] at isOne
    cases isOne

end Paired

end

end MemoryService.Foundation
