import Mathlib.Data.List.Sort
import MemoryService.Foundation.Table

/-!
# The least elements of a union

A union that keeps its `n` least elements only may be taken one part after another.
-/

namespace MemoryService.Foundation

open List

universe u

section

variable {α : Type u} {list : List α} {x : α} {n : Nat}

theorem mem_take_filter {keeps : α → Bool} (isFirst : x ∈ list.take n) (kept : keeps x = true) :
    x ∈ (list.filter keeps).take n := by
  induction list generalizing n with
  | nil => cases n <;> cases isFirst
  | cons head rest ih =>
    cases n with
    | zero => cases isFirst
    | succ n =>
      rcases mem_cons.mp isFirst with rfl | isLater
      · rw [filter_cons_of_pos kept]
        exact mem_cons_self
      · have isKept := ih isLater
        rw [filter_cons]
        split
        · exact mem_cons_of_mem head isKept
        · exact (take_sublist_take_left (Nat.le_succ n)).subset isKept

theorem take_filter_of_all {keeps : α → Bool} (kept : ∀ x ∈ list.take n, keeps x = true) :
    (list.filter keeps).take n = list.take n := by
  induction list generalizing n with
  | nil => rfl
  | cons head rest ih =>
    cases n with
    | zero => rfl
    | succ n =>
      rw [filter_cons_of_pos (kept head mem_cons_self), take_succ_cons,
        take_succ_cons,
        ih fun x isFirst => kept x (mem_cons_of_mem head isFirst)]

end

variable {α : Type u} [LinearOrder α] {first second list others : List α} {x : α} {n : Nat}

def ordered (list : List α) : List α := list.eraseDups.insertionSort (· ≤ ·)

@[simp] theorem mem_ordered : x ∈ ordered list ↔ x ∈ list := by
  rw [ordered, mem_insertionSort, mem_eraseDups]

theorem ordered_nodup (list : List α) : (ordered list).Nodup :=
  (perm_insertionSort (· ≤ ·) list.eraseDups).nodup_iff.mpr (nodup_eraseDups list)

theorem ordered_sorted (list : List α) : (ordered list).Pairwise (· ≤ ·) :=
  pairwise_insertionSort (· ≤ ·) list.eraseDups

theorem length_ordered (list : List α) : (ordered list).length = list.eraseDups.length :=
  (perm_insertionSort (· ≤ ·) list.eraseDups).length_eq

theorem eq_of_sorted (sorted : list.Pairwise (· ≤ ·)) (distinct : list.Nodup)
    (othersSorted : others.Pairwise (· ≤ ·)) (othersDistinct : others.Nodup)
    (same : ∀ x, x ∈ list ↔ x ∈ others) : list = others :=
  ((perm_ext_iff_of_nodup distinct othersDistinct).mpr same).eq_of_pairwise
    (fun _ _ _ _ => le_antisymm) sorted othersSorted

theorem ordered_congr (same : ∀ x, x ∈ list ↔ x ∈ others) : ordered list = ordered others :=
  eq_of_sorted (ordered_sorted list) (ordered_nodup list) (ordered_sorted others)
    (ordered_nodup others) fun x => by rw [mem_ordered, mem_ordered, same]

theorem filter_ordered (part : List α) (isPart : ∀ x ∈ part, x ∈ list) :
    (ordered list).filter (· ∈ part) = ordered part := by
  refine eq_of_sorted ((ordered_sorted list).filter _) ((ordered_nodup list).filter _)
    (ordered_sorted part) (ordered_nodup part) fun x => ?_
  rw [mem_filter, mem_ordered, mem_ordered, decide_eq_true_eq]
  exact and_iff_right_of_imp (isPart x)

/-- The `n` least elements, each once, in their order. -/
def least (n : Nat) (list : List α) : List α := (ordered list).take n

theorem mem_of_mem_least (isLeast : x ∈ least n list) : x ∈ list :=
  mem_ordered.mp (mem_of_mem_take isLeast)

theorem least_congr (same : ∀ x, x ∈ list ↔ x ∈ others) : least n list = least n others := by
  rw [least, least, ordered_congr same]

theorem few_iff : list.eraseDups.length ≤ n ↔ ∀ x ∈ list, x ∈ least n list := by
  rw [← length_ordered]
  constructor
  · intro few x member
    rw [least, take_of_length_le few]
    exact mem_ordered.mpr member
  · intro allKept
    have isPart : (ordered list).Subperm (least n list) :=
      subperm_of_subset (ordered_nodup list) fun x member => allKept x (mem_ordered.mp member)
    calc (ordered list).length ≤ (least n list).length := isPart.length_le
      _ ≤ n := length_take_le n _

theorem least_append_least : least n (first ++ least n second) = least n (first ++ second) := by
  have isPart : ∀ x ∈ first ++ least n second, x ∈ first ++ second := by
    intro x member
    rcases mem_append.mp member with isFirst | isLeast
    · exact mem_append_left second isFirst
    · exact mem_append_right first (mem_of_mem_least isLeast)
  have secondPart : ∀ x ∈ second, x ∈ first ++ second := fun x isSecond =>
    mem_append_right first isSecond
  change (ordered (first ++ least n second)).take n = (ordered (first ++ second)).take n
  rw [← filter_ordered _ isPart]
  refine take_filter_of_all fun x isLeast => decide_eq_true ?_
  rcases mem_append.mp (mem_of_mem_least isLeast) with isFirst | isSecond
  · exact mem_append_left _ isFirst
  · refine mem_append_right first ?_
    rw [least, ← filter_ordered _ secondPart]
    exact mem_take_filter isLeast (decide_eq_true isSecond)

end MemoryService.Foundation
