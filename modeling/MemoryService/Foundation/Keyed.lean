import MemoryService.Foundation.Table

/-!
# Tables under a primary key

No two rows of a table have one key. An insert is refused where the key is taken, or where the
row clashes with another.
-/

namespace MemoryService.Foundation

open List

universe u v

structure Keyed {Row : Type u} {Key : Type v} (key : Row → Key) where
  rows : List Row
  unique : (rows.map key).Nodup

namespace Keyed

variable {Row : Type u} {Key : Type v} {key : Row → Key}

def empty : Keyed key where
  rows := []
  unique := nodup_nil

variable {table next : Keyed key} {selects part : Row → Bool} {assign : Row → Row} {sought : Key}
  {clash : Row → Row → Bool} {new : Row}

theorem ext_rows {other : Keyed key} (same : table.rows = other.rows) : table = other := by
  cases table
  cases other
  cases same
  rfl

/-- `UPDATE … WHERE`, of columns that are not the key. -/
def update (selects : Row → Bool) (assign : Row → Row) (keyed : ∀ row, key (assign row) = key row)
    (table : Keyed key) : Keyed key where
  rows := updateWhere selects assign table.rows
  unique := nodup_map_updateWhere keyed table.unique

def restrict (part : Row → Bool) (table : Keyed key) : Keyed key where
  rows := table.rows.filter part
  unique := (filter_sublist.map key).nodup table.unique

theorem update_restrict (keyed : ∀ row, key (assign row) = key row) (table : Keyed key)
    (keeps : ∀ row, part (assign row) = part row) :
    (table.restrict part).update selects assign keyed =
      (table.update selects assign keyed).restrict part := by
  apply ext_rows
  change updateWhere selects assign (table.rows.filter part) =
    (updateWhere selects assign table.rows).filter part
  rw [updateWhere, updateWhere, filter_map]
  congr 1
  refine filter_congr fun row _ => ?_
  rw [Function.comp_apply]
  split
  case isTrue => rw [keeps]
  case isFalse => rfl

theorem update_hidden (keyed : ∀ row, key (assign row) = key row) (table : Keyed key)
    (apart : ∀ row, selects row = true → part row = false ∧ part (assign row) = false) :
    (table.update selects assign keyed).restrict part = table.restrict part := by
  apply ext_rows
  exact filter_updateWhere (fun row _ selected => (apart row selected).1)
    fun row _ selected => (apart row selected).2

variable [DecidableEq Key]

def find (table : Keyed key) (sought : Key) : Option Row :=
  table.rows.find? fun row => key row = sought

/-- `INSERT`: nothing where the key is taken or a row clashes. -/
def insert (clash : Row → Row → Bool) (new : Row) (table : Keyed key) : Option (Keyed key) :=
  if free : key new ∉ table.rows.map key then
    if table.rows.any (clash new) then none
    else some ⟨table.rows ++ [new], nodup_map_insert free table.unique⟩
  else none

theorem find_eq_some_iff {row : Row} :
    table.find sought = some row ↔ row ∈ table.rows ∧ key row = sought := by
  rw [find]
  exact find?_key_iff table.unique

theorem find_eq_none_iff : table.find sought = none ↔ sought ∉ table.rows.map key := by
  rw [find, find?_eq_none]
  simp

theorem insert_eq_some
    (inserted : table.insert clash new = some next) : next.rows = table.rows ++ [new] := by
  rw [insert] at inserted
  split at inserted
  case isTrue =>
    obtain ⟨-, inserted⟩ := Option.ite_none_left_eq_some.mp inserted
    cases inserted
    rfl
  case isFalse => cases inserted

theorem exists_insert
    (free : key new ∉ table.rows.map key) (apart : ∀ row ∈ table.rows, clash new row = false) :
    ∃ next, table.insert clash new = some next := by
  have noClash : ¬ table.rows.any (clash new) = true := by
    rw [any_eq_true]
    rintro ⟨row, member, clashes⟩
    exact absurd (apart row member) (by simp [clashes])
  rw [insert, dif_pos free, if_neg noClash]
  exact ⟨_, rfl⟩

theorem find_restrict (part : Row → Bool) (table : Keyed key) (sought : Key) :
    (table.restrict part).find sought = (table.find sought).filter part := by
  cases found : table.find sought with
  | none =>
    rw [find_eq_none_iff] at found
    refine find_eq_none_iff.mpr ?_
    exact fun present => found ((filter_sublist.map key).subset present)
  | some row =>
    obtain ⟨member, isRow⟩ := find_eq_some_iff.mp found
    cases isPart : part row with
    | true =>
      rw [Option.filter_some_pos isPart]
      exact find_eq_some_iff.mpr ⟨mem_filter.mpr ⟨member, isPart⟩, isRow⟩
    | false =>
      rw [Option.filter_some_neg (by simp [isPart]), find_eq_none_iff]
      intro present
      obtain ⟨other, isOther, same⟩ := mem_map.mp present
      obtain ⟨otherMember, otherPart⟩ := mem_filter.mp isOther
      have isSame := (find_eq_some_iff.mpr ⟨otherMember, same⟩).symm.trans found
      cases isSame
      rw [isPart] at otherPart
      cases otherPart

theorem find_restrict_filter {keep : Row → Bool}
    (isPart : ∀ row, keep row = true → part row = true) (table : Keyed key) (sought : Key) :
    ((table.restrict part).find sought).filter keep = (table.find sought).filter keep := by
  rw [find_restrict, Option.filter_filter]
  congr 1
  funext row
  cases kept : keep row with
  | true => rw [isPart row kept]; rfl
  | false => rw [Bool.and_false]

theorem insert_restrict (isPart : part new = true)
    (away : ∀ row ∈ table.rows, part row = false → key row ≠ key new ∧ clash new row = false) :
    (table.restrict part).insert clash new = (table.insert clash new).map (restrict part) := by
  have sameKeys : key new ∉ (table.restrict part).rows.map key ↔ key new ∉ table.rows.map key := by
    rw [not_iff_not, mem_map, mem_map]
    constructor
    · rintro ⟨row, member, same⟩
      exact ⟨row, mem_of_mem_filter member, same⟩
    · rintro ⟨row, member, same⟩
      cases rowPart : part row with
      | true => exact ⟨row, mem_filter.mpr ⟨member, rowPart⟩, same⟩
      | false => exact absurd same (away row member rowPart).1
  have sameClash : (table.restrict part).rows.any (clash new) = true ↔
      table.rows.any (clash new) = true := by
    rw [any_eq_true, any_eq_true]
    constructor
    · rintro ⟨row, member, clashes⟩
      exact ⟨row, mem_of_mem_filter member, clashes⟩
    · rintro ⟨row, member, clashes⟩
      cases rowPart : part row with
      | true => exact ⟨row, mem_filter.mpr ⟨member, rowPart⟩, clashes⟩
      | false =>
        rw [(away row member rowPart).2] at clashes
        cases clashes
  rw [insert, insert]
  by_cases free : key new ∉ table.rows.map key
  · rw [dif_pos free, dif_pos (sameKeys.mpr free)]
    by_cases clashes : table.rows.any (clash new) = true
    · rw [if_pos clashes, if_pos (sameClash.mpr clashes)]
      rfl
    · rw [if_neg clashes, if_neg (sameClash.not.mpr clashes), Option.map_some, Option.some_inj]
      apply ext_rows
      change table.rows.filter part ++ [new] = (table.rows ++ [new]).filter part
      rw [filter_append, filter_cons_of_pos isPart, filter_nil]
  · rw [dif_neg free, dif_neg (sameKeys.not.mpr free)]
    rfl

theorem insert_hidden (notPart : part new = false)
    (inserted : table.insert clash new = some next) : next.restrict part = table.restrict part := by
  apply ext_rows
  change next.rows.filter part = table.rows.filter part
  rw [insert_eq_some inserted, filter_append, filter_cons_of_neg, filter_nil, append_nil]
  rw [notPart]
  decide

end Keyed

end MemoryService.Foundation
