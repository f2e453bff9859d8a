import Mathlib.Data.List.Sort

/-!
# Lists that are sorted twice

A stable sort by a key leaves the order of what has the same key as it was.
-/

namespace MemoryService.Foundation.StableSort

open List

universe u

variable {α : Type u}

theorem pairwise_sorted {key : α → ℤ} {earlier : α → α → Prop} {list : List α}
    (ordered : list.Pairwise earlier) :
    (list.insertionSort fun first second => key first ≤ key second).Pairwise fun first second =>
      key first < key second ∨ key first = key second ∧ earlier first second := by
  induction ordered with
  | nil => exact List.Pairwise.nil
  | @cons head tail isEarlier _ ih =>
    rw [insertionSort_cons]
    have fromTail : ∀ other ∈ tail.insertionSort (fun first second => key first ≤ key second),
        earlier head other :=
      fun other member => isEarlier other ((mem_insertionSort _).mp member)
    generalize tail.insertionSort (fun first second => key first ≤ key second) = sorted at *
    clear isEarlier
    induction ih with
    | nil => exact pairwise_singleton _ _
    | @cons next rest isNext isSorted insertHypothesis =>
      rw [List.orderedInsert]
      split
      case isTrue notAfter =>
        refine pairwise_cons.mpr ⟨?_, pairwise_cons.mpr ⟨isNext, isSorted⟩⟩
        intro other member
        have own := fromTail other member
        rcases mem_cons.mp member with rfl | isLater
        · rcases Int.lt_or_eq_of_le notAfter with less | same
          · exact .inl less
          · exact .inr ⟨same, own⟩
        · rcases isNext other isLater with less | ⟨same, -⟩
          · exact .inl (Int.lt_of_le_of_lt notAfter less)
          · rcases Int.lt_or_eq_of_le notAfter with less | same'
            · exact .inl (same ▸ less)
            · exact .inr ⟨same'.trans same, own⟩
      case isFalse isAfter =>
        have inserted := insertHypothesis fun other member =>
          fromTail other (mem_cons_of_mem _ member)
        refine pairwise_cons.mpr ⟨fun other member => ?_, inserted⟩
        rcases (mem_orderedInsert _).mp member with rfl | isLater
        · exact .inl (Int.not_le.mp isAfter)
        · exact isNext other isLater

variable {before ahead : α → α → Prop}

theorem head_eq (beforeAsymm : ∀ a b, before a b → ¬before b a) {top head : α}
    {others rest : List α} (perm : (top :: others).Perm (head :: rest))
    (isBefore : ∀ b ∈ others, before top b) (leads : ∀ b ∈ rest, before head b) :
    top = head := by
  by_contra apart
  have inRest : top ∈ rest := (mem_cons.mp (perm.mem_iff.mp mem_cons_self)).resolve_left apart
  have inOthers : head ∈ others :=
    (mem_cons.mp (perm.mem_iff.mpr mem_cons_self)).resolve_left (Ne.symm apart)
  exact beforeAsymm _ _ (isBefore head inOthers) (leads top inRest)

theorem take_eq_iff (beforeAsymm : ∀ a b, before a b → ¬before b a)
    (aheadAsymm : ∀ a b, ahead a b → ¬ahead b a) {first second : List α}
    (perm : first.Perm second) (firstSorted : first.Pairwise before)
    (secondSorted : second.Pairwise ahead) (count : ℕ) :
    first.take count = second.take count ↔
      ∀ a ∈ second.take count, ∀ b ∈ second, ahead a b → before a b := by
  induction second generalizing first count with
  | nil =>
    rw [perm_nil.mp perm]
    simp
  | cons head rest ih =>
    obtain ⟨isAhead, restSorted⟩ := pairwise_cons.mp secondSorted
    cases first with
    | nil => cases nil_perm.mp perm
    | cons top others =>
      obtain ⟨isBefore, othersSorted⟩ := pairwise_cons.mp firstSorted
      cases count with
      | zero => simp
      | succ count =>
        -- nothing is ahead of the head, so what an element is ahead of is in the rest
        have inRest : ∀ a, a = head ∨ a ∈ rest → ∀ b ∈ head :: rest, ahead a b → b ∈ rest := by
          intro a isIn b member isBehind
          rcases mem_cons.mp member with rfl | inRest
          · rcases isIn with rfl | isLater
            · exact absurd isBehind (aheadAsymm _ _ isBehind)
            · exact absurd isBehind (aheadAsymm _ _ (isAhead a isLater))
          · exact inRest
        rw [take_succ_cons, take_succ_cons]
        constructor
        · intro same
          obtain ⟨rfl, sameRest⟩ := List.cons.inj same
          have permRest := List.Perm.cons_inv perm
          have ordered := (ih permRest othersSorted restSorted count).mp sameRest
          intro a isTaken b member isBehind
          rcases mem_cons.mp isTaken with rfl | isTaken
          · exact isBefore b (permRest.mem_iff.mpr (inRest a (.inl rfl) b member isBehind))
          · have isLater := mem_of_mem_take isTaken
            exact ordered a isTaken b (inRest a (.inr isLater) b member isBehind) isBehind
        · intro ordered
          obtain rfl := head_eq beforeAsymm perm isBefore fun b isLater =>
            ordered head mem_cons_self b (mem_cons_of_mem _ isLater) (isAhead b isLater)
          have permRest := List.Perm.cons_inv perm
          refine congrArg _ ((ih permRest othersSorted restSorted count).mpr ?_)
          intro a isTaken b isLater isBehind
          exact ordered a (mem_cons_of_mem _ isTaken) b (mem_cons_of_mem _ isLater) isBehind

end MemoryService.Foundation.StableSort
