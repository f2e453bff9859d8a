import Mathlib.Data.List.Induction
import MemoryService.Foundation.Dict
import Mathlib.Data.List.Perm.Basic

/-!
# The first of each key

A pass over a list keeps an item when no item of its key was kept before.  What is kept is a
sublist in which every key of the list occurs once, at the first item that has it.
-/

namespace MemoryService.Foundation

open List

universe u v

section FirstSeen

variable {α : Type u} {κ : Type v} [DecidableEq κ] (key : α → κ)

/-- `seen.setdefault(key(item), item)` for the items in turn. -/
def firstSeen (items : List α) : List α :=
  items.foldl (fun seen item =>
    if seen.any fun other => key other = key item then seen else seen ++ [item]) []

variable {key} {items : List α} {item : α}

@[simp]
theorem firstSeen_nil : firstSeen key [] = [] := rfl

theorem firstSeen_concat (items : List α) (item : α) :
    firstSeen key (items ++ [item]) =
      if (firstSeen key items).any fun other => key other = key item then firstSeen key items
      else firstSeen key items ++ [item] := by
  rw [firstSeen, foldl_append]
  rfl

theorem firstSeen_sublist (key : α → κ) (items : List α) : (firstSeen key items).Sublist items := by
  induction items using List.reverseRecOn with
  | nil => exact List.Sublist.slnil
  | append_singleton items item ih =>
    rw [firstSeen_concat]
    split
    · exact ih.trans (sublist_append_left items [item])
    · exact ih.append (List.Sublist.refl [item])

theorem mem_of_mem_firstSeen (member : item ∈ firstSeen key items) : item ∈ items :=
  (firstSeen_sublist key items).subset member

theorem keys_firstSeen_nodup (key : α → κ) (items : List α) :
    ((firstSeen key items).map key).Nodup := by
  induction items using List.reverseRecOn with
  | nil => exact nodup_nil
  | append_singleton items item ih =>
    rw [firstSeen_concat]
    split
    case isTrue => exact ih
    case isFalse isNew =>
      rw [map_append, map_singleton, nodup_append]
      refine ⟨ih, nodup_singleton _, ?_⟩
      intro first isKept second isLast same
      obtain ⟨other, member, rfl⟩ := mem_map.mp isKept
      rw [mem_singleton.mp isLast] at same
      exact isNew (any_eq_true.mpr ⟨other, member, decide_eq_true same⟩)

theorem exists_firstSeen (key : α → κ) (member : item ∈ items) :
    ∃ kept ∈ firstSeen key items, key kept = key item := by
  induction items using List.reverseRecOn with
  | nil => cases member
  | append_singleton items last ih =>
    have inherited : ∀ kept ∈ firstSeen key items, kept ∈ firstSeen key (items ++ [last]) := by
      intro kept isKept
      rw [firstSeen_concat]
      split
      · exact isKept
      · exact mem_append_left _ isKept
    cases mem_append.mp member with
    | inl isEarlier =>
      obtain ⟨kept, isKept, same⟩ := ih isEarlier
      exact ⟨kept, inherited kept isKept, same⟩
    | inr isLast =>
      rw [mem_singleton.mp isLast, firstSeen_concat]
      split
      case isTrue seen =>
        obtain ⟨kept, isKept, same⟩ := any_eq_true.mp seen
        exact ⟨kept, isKept, of_decide_eq_true same⟩
      case isFalse => exact ⟨last, by simp, rfl⟩

theorem firstSeen_first (isKept : item ∈ firstSeen key items) :
    ∃ before after, items = before ++ item :: after ∧ ∀ other ∈ before, key other ≠ key item := by
  induction items using List.reverseRecOn with
  | nil => cases isKept
  | append_singleton items last ih =>
    rw [firstSeen_concat] at isKept
    have earlier : item ∈ firstSeen key items → ∃ before after,
        items ++ [last] = before ++ item :: after ∧ ∀ other ∈ before, key other ≠ key item := by
      intro isEarlier
      obtain ⟨before, after, isSplit, fresh⟩ := ih isEarlier
      exact ⟨before, after ++ [last], by simp [isSplit], fresh⟩
    split at isKept
    case isTrue => exact earlier isKept
    case isFalse isNew =>
      cases mem_append.mp isKept with
      | inl isEarlier => exact earlier isEarlier
      | inr isLast =>
        rw [mem_singleton.mp isLast]
        refine ⟨items, [], rfl, ?_⟩
        intro other member same
        obtain ⟨kept, keptMember, sameKey⟩ := exists_firstSeen key member
        exact isNew (any_eq_true.mpr ⟨kept, keptMember, decide_eq_true (sameKey.trans same)⟩)

theorem firstSeen_of_nodup (distinct : (items.map key).Nodup) : firstSeen key items = items := by
  induction items using List.reverseRecOn with
  | nil => rfl
  | append_singleton items item ih =>
    rw [map_append, nodup_append] at distinct
    rw [firstSeen_concat, ih distinct.1, if_neg]
    intro seen
    obtain ⟨other, member, same⟩ := any_eq_true.mp seen
    exact distinct.2.2 (key other) (mem_map_of_mem member) (key item) (by simp)
      (of_decide_eq_true same)

theorem firstSeen_append_of_seen {later : List α}
    (seen : ∀ item ∈ later, ∃ other ∈ items, key other = key item) :
    firstSeen key (items ++ later) = firstSeen key items := by
  induction later using List.reverseRecOn with
  | nil => rw [append_nil]
  | append_singleton later item ih =>
    obtain ⟨other, member, same⟩ := seen item (by simp)
    obtain ⟨kept, isKept, sameKey⟩ := exists_firstSeen key member
    rw [← append_assoc, firstSeen_concat,
      ih fun item isEarlier => seen item (mem_append_left _ isEarlier),
      if_pos]
    exact any_eq_true.mpr ⟨kept, isKept, decide_eq_true (sameKey.trans same)⟩

theorem firstSeen_append (key : α → κ) (items later : List α) :
    ∃ more, firstSeen key (items ++ later) = firstSeen key items ++ more := by
  induction later using List.reverseRecOn with
  | nil => exact ⟨[], by simp⟩
  | append_singleton later item ih =>
    obtain ⟨more, isSplit⟩ := ih
    rw [← append_assoc, firstSeen_concat]
    split
    · exact ⟨more, isSplit⟩
    · exact ⟨more ++ [item], by rw [isSplit, append_assoc]⟩

theorem firstSeen_met {before : List κ} (after : List κ) {k : κ} (isNew : k ∉ before) :
    ∃ later, firstSeen id (before ++ k :: after) = firstSeen id before ++ k :: later := by
  obtain ⟨more, isSplit⟩ := firstSeen_append id (before ++ [k]) after
  have isKept : firstSeen id (before ++ [k]) = firstSeen id before ++ [k] := by
    rw [firstSeen_concat, if_neg]
    intro seen
    obtain ⟨other, member, same⟩ := any_eq_true.mp seen
    have isKey : other = k := of_decide_eq_true same
    exact isNew (isKey ▸ mem_of_mem_firstSeen member)
  refine ⟨more, ?_⟩
  rw [isKept, append_assoc, append_assoc] at isSplit
  exact isSplit

@[simp]
theorem mem_firstSeen {keys : List κ} {k : κ} : k ∈ firstSeen id keys ↔ k ∈ keys := by
  refine ⟨mem_of_mem_firstSeen, fun member => ?_⟩
  have isSeen : ∃ kept ∈ firstSeen id keys, id kept = id k := exists_firstSeen id member
  obtain ⟨kept, isKept, rfl⟩ := isSeen
  exact isKept

theorem firstSeen_nodup (keys : List κ) : (firstSeen id keys).Nodup := by
  simpa using keys_firstSeen_nodup id keys

theorem firstSeen_le {rank : α → Nat} (rises : items.Pairwise fun a b => rank a < rank b)
    (isKept : item ∈ firstSeen key items) {other : α} (member : other ∈ items)
    (same : key other = key item) : rank item ≤ rank other := by
  obtain ⟨before, after, isSplit, fresh⟩ := firstSeen_first isKept
  rw [isSplit] at member rises
  have isFirst := (pairwise_cons.mp (pairwise_append.mp rises).2.1).1
  cases mem_append.mp member with
  | inl isBefore => exact absurd same (fresh other isBefore)
  | inr isAfter =>
    cases mem_cons.mp isAfter with
    | inl isItem => exact Nat.le_of_eq (congrArg rank isItem.symm)
    | inr isLater => exact Nat.le_of_lt (isFirst other isLater)

end FirstSeen

end MemoryService.Foundation

/-!
## Items gathered under their keys

A pass over a list gives every key an entry, which is a fold over the items of that key.  The keys
stand in the order in which they came.
-/

namespace MemoryService.Foundation

universe u v w

namespace Dict

variable {κ : Type u} {α : Type v} [DecidableEq κ]

theorem keys_set (dict : Dict κ α) (key : κ) (value : α) :
    (dict.set key value).keys =
      if key ∈ dict.keys then dict.keys else dict.keys ++ [key] := by
  have sameKeys : (updateWhere (fun entry => entry.1 = key) (fun entry => (entry.1, value))
      dict.items).map Prod.fst = dict.items.map Prod.fst := by
    rw [updateWhere, List.map_map]
    apply List.map_congr_left
    intro entry _
    simp only [Function.comp_apply]
    split <;> rfl
  rw [keys, set]
  dsimp only
  by_cases present : key ∈ dict.keys
  · rw [if_pos present, if_pos (contains_iff.mpr present), sameKeys, keys]
  · rw [if_neg present, if_neg fun isThere => present (contains_iff.mp isThere)]
    simp [keys]

theorem items_eq (dict : Dict κ α) : dict.items.map Prod.snd = dict.keys.filterMap dict.get? := by
  have found : ∀ entry ∈ dict.items, (dict.get? ∘ Prod.fst) entry = some entry.2 :=
    fun entry member => get?_eq_some_iff.mpr member
  rw [keys, List.filterMap_map, List.filterMap_congr found, List.filterMap_eq_map']

end Dict

section Gathered

variable {α : Type u} {κ : Type v} {β : Type w} [DecidableEq κ] (key : α → κ) (new : α → β)
  (add : β → α → β)

/-- `add` changes `table.setdefault(key(item), new(item))`, for the items in turn. -/
def gathered (items : List α) : Dict κ β :=
  items.foldl
    (fun table item => table.set (key item) (add ((table.get? (key item)).getD (new item)) item)) ∅

/-- What the items of one key make. -/
def combined : List α → Option β
  | [] => none
  | first :: rest => some ((first :: rest).foldl add (new first))

variable {key new add} (items : List α)

theorem gathered_concat (item : α) :
    gathered key new add (items ++ [item]) =
      (gathered key new add items).set (key item)
        (add (((gathered key new add items).get? (key item)).getD (new item)) item) := by
  rw [gathered, List.foldl_append]
  rfl

theorem combined_concat (item : α) :
    combined new add (items ++ [item]) =
      some (add ((combined new add items).getD (new item)) item) := by
  cases items with
  | nil => rfl
  | cons first rest =>
    rw [List.cons_append, combined, combined, ← List.cons_append, List.foldl_append]
    rfl

theorem get?_gathered (k : κ) :
    (gathered key new add items).get? k = combined new add (items.filter (key · = k)) := by
  induction items using List.reverseRecOn with
  | nil => rfl
  | append_singleton items item ih =>
    rw [gathered_concat, List.filter_append]
    by_cases isKey : key item = k
    · subst isKey
      rw [Dict.get?_set_self, List.filter_cons_of_pos (by simp), List.filter_nil,
        combined_concat, ih]
    · rw [Dict.get?_set_other _ _ (Ne.symm isKey), List.filter_cons_of_neg (by simpa using isKey),
        List.filter_nil, List.append_nil, ih]

theorem keys_gathered :
    (gathered key new add items).keys = firstSeen id (items.map key) := by
  induction items using List.reverseRecOn with
  | nil => rfl
  | append_singleton items item ih =>
    rw [gathered_concat, Dict.keys_set, List.map_append, List.map_singleton, firstSeen_concat, ih]
    have seen :
        ((firstSeen id (items.map key)).any fun other => id other = id (key item)) = true ↔
        key item ∈ firstSeen id (items.map key) := by
      simp
    simp only [seen]

theorem keys_gathered_perm {items others : List α} (isPerm : items.Perm others) :
    (gathered key new add items).keys.Perm (gathered key new add others).keys := by
  rw [keys_gathered, keys_gathered]
  apply (List.perm_ext_iff_of_nodup (firstSeen_nodup _) (firstSeen_nodup _)).mpr
  intro k
  rw [mem_firstSeen, mem_firstSeen]
  exact (isPerm.map key).mem_iff

end Gathered

end MemoryService.Foundation
