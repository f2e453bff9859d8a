import Mathlib.Data.List.TakeWhile
import Mathlib.Data.String.Basic

/-!
# Cutting a text at a separator

`partition` cuts a text at the first occurrence of a character, `last_part` is what follows the
last one.
-/

namespace MemoryService.Foundation

open List

variable {separator : Char}

def partition (separator : Char) (text : String) : String × Bool × String :=
  match text.toList.dropWhile (· ≠ separator) with
  | [] => (text, false, "")
  | _ :: tail => (.ofList (text.toList.takeWhile (· ≠ separator)), true, .ofList tail)

def lastPart (separator : Char) (text : String) : String :=
  .ofList (text.toList.reverse.takeWhile (· ≠ separator)).reverse

variable {chars rest : List Char} {head tail text : String}

theorem takeWhile_of_free (free : separator ∉ chars) :
    (chars ++ separator :: rest).takeWhile (· ≠ separator) = chars := by
  rw [takeWhile_append_of_pos]
  · simp
  · intro c member
    have differs : c ≠ separator := fun same => free (same ▸ member)
    simpa using differs

theorem dropWhile_of_free (free : separator ∉ chars) :
    (chars ++ separator :: rest).dropWhile (· ≠ separator) = separator :: rest := by
  rw [dropWhile_append_of_pos]
  · simp
  · intro c member
    have differs : c ≠ separator := fun same => free (same ▸ member)
    simpa using differs

theorem partition_append (free : separator ∉ head.toList) :
    partition separator (head ++ (String.singleton separator ++ tail)) = (head, true, tail) := by
  have chars :
      (head ++ (String.singleton separator ++ tail)).toList =
        head.toList ++ separator :: tail.toList := by
    simp
  rw [partition, chars, dropWhile_of_free free, takeWhile_of_free free]
  simp

theorem append_of_partition (parts : partition separator text = (head, true, tail)) :
    head ++ (String.singleton separator ++ tail) = text := by
  rw [partition] at parts
  split at parts
  case h_1 _ => cases parts
  case h_2 first rest isRest =>
    have isSeparator : first = separator := by
      have notOther := head?_dropWhile_not (· ≠ separator) text.toList
      rw [isRest] at notOther
      simpa using notOther
    have whole := @takeWhile_append_dropWhile _ (· ≠ separator) text.toList
    rw [isRest, isSeparator] at whole
    cases parts
    apply String.toList_injective
    rw [String.toList_append, String.toList_append, String.toList_ofList, String.toList_ofList,
      String.toList_singleton, singleton_append]
    exact whole

theorem lastPart_append (free : separator ∉ tail.toList) :
    lastPart separator (head ++ (String.singleton separator ++ tail)) = tail := by
  have chars :
      (head ++ (String.singleton separator ++ tail)).toList.reverse =
        tail.toList.reverse ++ separator :: head.toList.reverse := by
    simp
  rw [lastPart, chars, takeWhile_of_free (by simpa using free)]
  simp

theorem lastPart_free (free : separator ∉ text.toList) : lastPart separator text = text := by
  have whole : text.toList.reverse.takeWhile (· ≠ separator) = text.toList.reverse := by
    apply takeWhile_eq_self_iff.mpr
    intro c member
    have differs : c ≠ separator := by
      intro same
      rw [same] at member
      exact free (mem_reverse.mp member)
    simpa using differs
  rw [lastPart, whole]
  simp

theorem partsEq {first second firstTail secondTail : String}
    (firstFree : separator ∉ first.toList) (secondFree : separator ∉ second.toList)
    (same : first ++ (String.singleton separator ++ firstTail) =
      second ++ (String.singleton separator ++ secondTail)) :
    first = second ∧ firstTail = secondTail := by
  have parts := congrArg (partition separator) same
  rw [partition_append firstFree, partition_append secondFree] at parts
  exact ⟨congrArg Prod.fst parts, congrArg (fun part => part.2.2) parts⟩

end MemoryService.Foundation
