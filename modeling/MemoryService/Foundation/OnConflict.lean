import MemoryService.Foundation.Table

/-!
# Rows under a unique key

`INSERT … ON CONFLICT DO NOTHING`, and then the row that the key finds: whoever comes first under
a key writes the row, and everyone after is answered with it.
-/

namespace MemoryService.Foundation

open List

universe u v

variable {Row : Type u} {Key : Type v} [DecidableEq Key] (key : Row → Key)

def insertOrRead (new : Row) (rows : List Row) : List Row × Row × Bool :=
  match rows.find? fun row => key row = key new with
  | some row => (rows, row, false)
  | none => (rows ++ [new], new, true)

section

variable {key} {new row : Row} {rows next : List Row} {inserted : Bool}
  (done : insertOrRead key new rows = (next, row, inserted))
include done

theorem insertOrRead_cases :
    (row ∈ rows ∧ key row = key new ∧ next = rows ∧ inserted = false) ∨
      (row = new ∧ key new ∉ rows.map key ∧ next = rows ++ [new] ∧ inserted = true) := by
  rw [insertOrRead] at done
  split at done
  case h_1 other found =>
    cases done
    have sameKey : key row = key new := by simpa using find?_some found
    exact .inl ⟨mem_of_find?_eq_some found, sameKey, rfl, rfl⟩
  case h_2 isNew =>
    cases done
    refine .inr ⟨rfl, fun present => ?_, rfl, rfl⟩
    obtain ⟨other, member, sameKey⟩ := mem_map.mp present
    exact absurd sameKey (by simpa using find?_eq_none.mp isNew other member)

theorem insertOrRead_answers : row ∈ next ∧ key row = key new := by
  rcases insertOrRead_cases done with ⟨member, sameKey, rfl, -⟩ | ⟨rfl, -, rfl, -⟩
  · exact ⟨member, sameKey⟩
  · exact ⟨mem_append_right _ (mem_singleton.mpr rfl), rfl⟩

theorem insertOrRead_keeps : rows ⊆ next := by
  rcases insertOrRead_cases done with ⟨-, -, rfl, -⟩ | ⟨-, -, rfl, -⟩
  · exact fun other member => member
  · exact fun other member => mem_append_left _ member

theorem insertOrRead_nodup (unique : (rows.map key).Nodup) : (next.map key).Nodup := by
  rcases insertOrRead_cases done with ⟨-, -, rfl, -⟩ | ⟨-, isNew, rfl, -⟩
  · exact unique
  · exact nodup_map_insert isNew unique

end

def insertOrUpdate (new : Row) (rows : List Row) : List Row :=
  if rows.any fun row => key row = key new then
    updateWhere (fun row => key row = key new) (fun _ => new) rows
  else rows ++ [new]

theorem mem_insertOrUpdate {new row : Row} {rows : List Row}
    (member : row ∈ insertOrUpdate key new rows) : row = new ∨ row ∈ rows := by
  rw [insertOrUpdate] at member
  split at member
  case isTrue =>
    rcases mem_updateWhere_cases member with ⟨-, -, -, isNew⟩ | ⟨isOld, -⟩
    · exact .inl isNew
    · exact .inr isOld
  case isFalse =>
    rcases mem_append.mp member with isOld | isNew
    · exact .inr isOld
    · exact .inl (mem_singleton.mp isNew)

def insertOrMerge (new : Row) (merge : Row → Row) (rows : List Row) : List Row :=
  if rows.any fun row => key row = key new then
    updateWhere (fun row => key row = key new) merge rows
  else rows ++ [new]

section

variable {key} {new : Row} {merge : Row → Row} {rows : List Row}

theorem find?_append_new (sought : Key) (absent : ∀ row ∈ rows, key row ≠ key new) :
    (rows ++ [new]).find? (fun row => key row = sought) =
      if key new = sought then some new else rows.find? fun row => key row = sought := by
  rw [find?_append]
  by_cases isOwn : key new = sought
  · rw [if_pos isOwn, find?_eq_none.mpr, Option.none_or]
    · exact find?_cons_of_pos (decide_eq_true isOwn)
    · exact fun other member isOther =>
        absent other member ((of_decide_eq_true isOther).trans isOwn.symm)
  · rw [if_neg isOwn, find?_cons_of_neg, find?_nil, Option.or_none]
    exact fun isNew => isOwn (of_decide_eq_true isNew)

theorem find?_insertOrMerge (keyed : ∀ row, key (merge row) = key row) (sought : Key) :
    (insertOrMerge key new merge rows).find? (fun row => key row = sought) =
      if key new = sought then
        some ((rows.find? fun row => key row = sought).elim new merge)
      else rows.find? fun row => key row = sought := by
  rw [insertOrMerge]
  split
  case isTrue present =>
    by_cases isOwn : key new = sought
    · subst isOwn
      obtain ⟨row, found⟩ := Option.isSome_iff_exists.mp (find?_isSome.mpr (any_eq_true.mp present))
      rw [if_pos rfl, find?_updateWhere_key keyed, found]
      rfl
    · rw [if_neg isOwn]
      refine find?_updateWhere_other fun row isRow => ?_
      have isNew : key row = key new := of_decide_eq_true isRow
      exact ⟨decide_eq_false (isNew ▸ isOwn), decide_eq_false (keyed row ▸ isNew ▸ isOwn)⟩
  case isFalse absent =>
    have isAbsent : ∀ row ∈ rows, key row ≠ key new := fun row member same =>
      absent (any_eq_true.mpr ⟨row, member, decide_eq_true same⟩)
    rw [find?_append_new sought isAbsent]
    by_cases isOwn : key new = sought
    · have noRow : rows.find? (fun row => key row = sought) = none :=
        find?_eq_none.mpr fun row member isRow =>
          isAbsent row member ((of_decide_eq_true isRow).trans isOwn.symm)
      rw [if_pos isOwn, if_pos isOwn, noRow]
      rfl
    · rw [if_neg isOwn, if_neg isOwn]

theorem mem_insertOrMerge {row : Row} (member : row ∈ insertOrMerge key new merge rows) :
    row = new ∨ ∃ before ∈ rows, row = before ∨ row = merge before := by
  rw [insertOrMerge] at member
  split at member
  case isTrue =>
    rcases mem_updateWhere_cases member with ⟨before, isBefore, -, isMerged⟩ | ⟨isOld, -⟩
    · exact .inr ⟨before, isBefore, .inr isMerged⟩
    · exact .inr ⟨row, isOld, .inl rfl⟩
  case isFalse =>
    rcases mem_append.mp member with isOld | isNew
    · exact .inr ⟨row, isOld, .inl rfl⟩
    · exact .inl (mem_singleton.mp isNew)

theorem insertOrMerge_nodup (keyed : ∀ row, key (merge row) = key row)
    (unique : (rows.map key).Nodup) : ((insertOrMerge key new merge rows).map key).Nodup := by
  rw [insertOrMerge]
  split
  case isTrue => exact nodup_map_updateWhere keyed unique
  case isFalse absent =>
    refine nodup_map_insert (fun present => ?_) unique
    obtain ⟨row, member, same⟩ := mem_map.mp present
    exact absent (any_eq_true.mpr ⟨row, member, decide_eq_true same⟩)

end

theorem find?_insertOrUpdate (new : Row) (rows : List Row) (sought : Key) :
    (insertOrUpdate key new rows).find? (fun row => key row = sought) =
      if key new = sought then some new else rows.find? fun row => key row = sought := by
  rw [insertOrUpdate]
  split
  case isTrue present =>
    by_cases isOwn : key new = sought
    · subst isOwn
      rw [if_pos rfl]
      exact find?_updateWhere_own (decide_eq_true rfl) present
    · rw [if_neg isOwn]
      refine find?_updateWhere_other fun other isOther => ?_
      rw [of_decide_eq_true isOther]
      exact ⟨decide_eq_false isOwn, decide_eq_false isOwn⟩
  case isFalse absent =>
    exact find?_append_new sought fun row member same =>
      absent (any_eq_true.mpr ⟨row, member, decide_eq_true same⟩)

end MemoryService.Foundation
