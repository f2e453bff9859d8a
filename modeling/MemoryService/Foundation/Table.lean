import Mathlib.Data.List.Count
import Mathlib.Data.List.Nodup

/-!
# Tables

A table is a list of rows.  `updateWhere` is one `UPDATE … WHERE` statement: it
changes the rows that satisfy a predicate and keeps their number and their order.
A column that an update does not assign keeps its values.
-/

namespace MemoryService.Foundation

open List

universe u v

variable {α : Type u}

theorem mem_concat {list : List α} {item last : α} :
    item ∈ list ++ [last] ↔ item ∈ list ∨ item = last := by
  rw [mem_append, mem_singleton]

theorem nodup_eraseDups [BEq α] [LawfulBEq α] (list : List α) :
    list.eraseDups.Nodup := by
  induction length : list.length using Nat.strongRecOn generalizing list with
  | ind n ih =>
    cases list with
    | nil => simp
    | cons first rest =>
      rw [eraseDups_cons, nodup_cons, mem_eraseDups, mem_filter]
      refine ⟨by simp, ih _ ?_ _ rfl⟩
      rw [← length, length_cons]
      exact Nat.lt_succ_of_le (length_filter_le _ rest)

theorem eraseDups_sublist [DecidableEq α] (list : List α) : list.eraseDups.Sublist list := by
  induction length : list.length using Nat.strongRecOn generalizing list with
  | ind n ih =>
    cases list with
    | nil => simp
    | cons first rest =>
      rw [eraseDups_cons]
      have shorter : (rest.filter fun other => !other == first).length < n := by
        rw [← length, length_cons]
        exact Nat.lt_succ_of_le (length_filter_le _ rest)
      exact ((ih _ shorter _ rfl).trans filter_sublist).cons_cons first

theorem length_eraseDups_eq_iff [DecidableEq α] {list : List α} :
    list.eraseDups.length = list.length ↔ list.Nodup := by
  constructor
  · intro same
    rw [← (eraseDups_sublist list).eq_of_length same]
    exact nodup_eraseDups list
  · intro once
    induction list with
    | nil => rfl
    | cons first rest ih =>
      obtain ⟨absent, restOnce⟩ := nodup_cons.mp once
      have kept : (rest.filter fun other => !other == first) = rest :=
        filter_eq_self.mpr fun other isOther => by
          simpa using fun same : other = first => absent (same ▸ isOther)
      rw [eraseDups_cons, kept, length_cons, length_cons, ih restOnce]

theorem exists_map_eq {β : Type v} (f : α → β) {holds : α → Prop} {images : List β}
    (each : ∀ image ∈ images, ∃ x, holds x ∧ f x = image) :
    ∃ xs : List α, (∀ x ∈ xs, holds x) ∧ xs.map f = images := by
  induction images with
  | nil => exact ⟨[], by simp, rfl⟩
  | cons image rest ih =>
    obtain ⟨x, isX, same⟩ := each image mem_cons_self
    obtain ⟨xs, all, sameRest⟩ := ih fun other member => each other (mem_cons_of_mem image member)
    exact ⟨x :: xs, forall_mem_cons.mpr ⟨isX, all⟩, by rw [map_cons, same, sameRest]⟩

section Tables

variable {Row : Type u} {Key : Type v} {row : Row}

theorem forall_mem_set {holds : Row → Prop} {rows : List Row} {position : Nat}
    (others : ∀ other ∈ rows, holds other) (own : holds row) :
    ∀ other ∈ rows.set position row, holds other := by
  intro other member
  rcases mem_or_eq_of_mem_set member with before | rfl
  · exact others other before
  · exact own

/-- `UPDATE … SET … WHERE …`. -/
def updateWhere (selects : Row → Bool) (assign : Row → Row) (rows : List Row) :
    List Row :=
  rows.map fun row => if selects row then assign row else row

variable {selects : Row → Bool} {assign : Row → Row} {rows : List Row}

theorem mem_updateWhere :
    row ∈ updateWhere selects assign rows ↔
      ∃ old ∈ rows, (if selects old then assign old else old) = row := by
  rw [updateWhere, mem_map]

theorem updateWhere_of_none (none_ : ∀ row ∈ rows, selects row = false) :
    updateWhere selects assign rows = rows := by
  refine (map_congr_left fun row member => ?_).trans (map_id rows)
  rw [none_ row member]
  rfl

theorem mem_updateWhere_cases (member : row ∈ updateWhere selects assign rows) :
    (∃ old ∈ rows, selects old = true ∧ row = assign old) ∨ (row ∈ rows ∧ selects row = false) := by
  obtain ⟨old, inRows, rfl⟩ := mem_updateWhere.mp member
  by_cases selected : selects old = true
  · rw [if_pos selected]
    exact .inl ⟨old, inRows, selected, rfl⟩
  · rw [if_neg selected]
    exact .inr ⟨inRows, Bool.eq_false_iff.mpr selected⟩

theorem updated_mem (member : row ∈ rows) (selected : selects row = true) :
    assign row ∈ updateWhere selects assign rows :=
  mem_updateWhere.mpr ⟨row, member, if_pos selected⟩

theorem kept_mem (member : row ∈ rows) (notSelected : selects row = false) :
    row ∈ updateWhere selects assign rows :=
  mem_updateWhere.mpr ⟨row, member, if_neg (by rw [notSelected]; decide)⟩

theorem find?_updateWhere_own (isOwn : selects row = true)
    (present : rows.any selects = true) :
    (updateWhere selects (fun _ => row) rows).find? selects = some row := by
  induction rows with
  | nil => cases present
  | cons first others ih =>
    cases isFirst : selects first with
    | true =>
      simp only [updateWhere, map_cons, isFirst, if_true]
      exact find?_cons_of_pos isOwn
    | false =>
      rw [any_cons, isFirst, Bool.false_or] at present
      simp only [updateWhere, map_cons, isFirst, Bool.false_eq_true, if_false, find?_cons]
      exact ih present

theorem find?_updateWhere_other {finds : Row → Bool}
    (apart : ∀ row, selects row = true → finds row = false ∧ finds (assign row) = false) :
    (updateWhere selects assign rows).find? finds = rows.find? finds := by
  induction rows with
  | nil => rfl
  | cons first others ih =>
    rw [updateWhere, map_cons, ← updateWhere, find?_cons, find?_cons, ih]
    by_cases selected : selects first = true
    · rw [if_pos selected, (apart first selected).1, (apart first selected).2]
    · rw [if_neg selected]

variable {key : Row → Key}

theorem find?_updateWhere_key [DecidableEq Key] {sought : Key}
    (unassigned : ∀ row, key (assign row) = key row) :
    (updateWhere (fun row => key row = sought) assign rows).find? (fun row => key row = sought) =
      (rows.find? fun row => key row = sought).map assign := by
  induction rows with
  | nil => rfl
  | cons first others ih =>
    rw [updateWhere, map_cons, ← updateWhere]
    by_cases isFirst : key first = sought
    · rw [if_pos (decide_eq_true isFirst), find?_cons_of_pos, find?_cons_of_pos, Option.map_some]
      · exact decide_eq_true isFirst
      · exact decide_eq_true ((unassigned first).trans isFirst)
    · rw [if_neg (by simpa using isFirst), find?_cons_of_neg (by simpa using isFirst),
        find?_cons_of_neg (by simpa using isFirst)]
      exact ih

theorem map_updateWhere {column : Row → Key}
    (unassigned : ∀ row, column (assign row) = column row) :
    (updateWhere selects assign rows).map column = rows.map column := by
  rw [updateWhere, map_map]
  refine map_congr_left fun row _ => ?_
  by_cases selected : selects row = true
  · simp only [Function.comp_apply, if_pos selected, unassigned]
  · simp only [Function.comp_apply, if_neg selected]

theorem nodup_map_updateWhere (unassigned : ∀ row, key (assign row) = key row)
    (unique : (rows.map key).Nodup) :
    ((updateWhere selects assign rows).map key).Nodup := by
  rw [map_updateWhere unassigned]
  exact unique

theorem nodup_map_insert (fresh : key row ∉ rows.map key) (unique : (rows.map key).Nodup) :
    ((rows ++ [row]).map key).Nodup := by
  rw [map_append, map_singleton, ← concat_eq_append, nodup_concat]
  exact ⟨fresh, unique⟩

theorem exists_of_mem_updateWhere {column : Row → Key}
    (unassigned : ∀ row, column (assign row) = column row)
    (member : row ∈ updateWhere selects assign rows) :
    ∃ old ∈ rows, column old = column row := by
  rcases mem_updateWhere_cases member with ⟨old, inRows, -, rfl⟩ | ⟨inRows, -⟩
  · exact ⟨old, inRows, (unassigned old).symm⟩
  · exact ⟨row, inRows, rfl⟩

theorem find?_key_iff [DecidableEq Key] {sought : Key}
    (unique : (rows.map key).Nodup) :
    rows.find? (fun other => key other = sought) = some row ↔ row ∈ rows ∧ key row = sought := by
  have isSought : ∀ {other}, rows.find? (fun other => key other = sought) = some other →
      other ∈ rows ∧ key other = sought := fun found =>
    ⟨mem_of_find?_eq_some found, by simpa using find?_some found⟩
  refine ⟨isSought, fun ⟨member, same⟩ => ?_⟩
  cases found : rows.find? fun other => key other = sought with
  | none => exact absurd same (by simpa using find?_eq_none.mp found row member)
  | some other =>
    obtain ⟨isOther, otherSame⟩ := isSought found
    rw [inj_on_of_nodup_map unique isOther member (otherSame.trans same.symm)]

theorem countP_key_eq_one [DecidableEq Key]
    (unique : (rows.map key).Nodup) (member : row ∈ rows) :
    rows.countP (fun other => key other = key row) = 1 := by
  have once : (rows.map key).count (key row) = 1 :=
    count_eq_one_of_mem unique (mem_map_of_mem member)
  rw [List.count, countP_map] at once
  rw [← once]
  refine countP_congr fun other _ => ?_
  simp only [decide_eq_true_eq, Function.comp_apply, beq_iff_eq]

variable {kind : Row → Bool}

theorem filter_updateWhere (before : ∀ row ∈ rows, selects row = true → kind row = false)
    (after : ∀ row ∈ rows, selects row = true → kind (assign row) = false) :
    (updateWhere selects assign rows).filter kind = rows.filter kind := by
  induction rows with
  | nil => rfl
  | cons row rest ih =>
    have later : (updateWhere selects assign rest).filter kind = rest.filter kind := by
      apply ih
      · exact fun other member => before other (mem_cons_of_mem row member)
      · exact fun other member => after other (mem_cons_of_mem row member)
    rw [updateWhere, map_cons, ← updateWhere, filter_cons, filter_cons, later]
    by_cases selected : selects row = true
    · rw [if_pos selected, before row mem_cons_self selected, after row mem_cons_self selected]
      rfl
    · rw [if_neg selected]

theorem countP_updateWhere_key (unique : (rows.map key).Nodup)
    (member : row ∈ rows)
    (selected : ∀ other ∈ rows, selects other = true ↔ key other = key row)
    (before : kind row = false) :
    (updateWhere selects assign rows).countP kind =
      rows.countP kind + if kind (assign row) then 1 else 0 := by
  induction rows with
  | nil => cases member
  | cons first rest ih =>
    rw [map_cons, nodup_cons] at unique
    have selectedLater : ∀ other ∈ rest, selects other = true ↔ key other = key row :=
      fun other isLater => selected other (mem_cons_of_mem first isLater)
    rw [updateWhere, map_cons, ← updateWhere, countP_cons, countP_cons]
    rcases mem_cons.mp member with isFirst | isLater
    · have untouched : updateWhere selects assign rest = rest := by
        refine updateWhere_of_none fun other isOther => Bool.eq_false_iff.mpr fun selected => ?_
        have sameKey := (selectedLater other isOther).mp selected
        rw [isFirst] at sameKey
        exact unique.1 (mem_map.mpr ⟨other, isOther, sameKey⟩)
      have isSelected : selects first = true := (selected first mem_cons_self).mpr (by rw [isFirst])
      rw [untouched, if_pos isSelected, ← isFirst, before]
      simp
    · have notSelected : ¬selects first = true := by
        intro isSelected
        have sameKey := (selected first mem_cons_self).mp isSelected
        exact unique.1 (mem_map.mpr ⟨row, isLater, sameKey.symm⟩)
      rw [if_neg notSelected, ih unique.2 isLater selectedLater]
      omega

theorem filter_updateWhere_perm [DecidableEq Key] (unique : (rows.map key).Nodup)
    (member : row ∈ rows)
    (before : kind row = false) (after : kind (assign row) = true) :
    ((updateWhere (fun other => key other = key row) assign rows).filter kind).Perm
      (assign row :: rows.filter kind) := by
  induction rows with
  | nil => cases member
  | cons first rest ih =>
    rw [map_cons, nodup_cons] at unique
    rw [updateWhere, map_cons, ← updateWhere]
    rcases mem_cons.mp member with isFirst | isLater
    · subst isFirst
      have untouched : updateWhere (fun other => key other = key row) assign rest = rest := by
        refine updateWhere_of_none fun other isOther => decide_eq_false fun sameKey => ?_
        exact unique.1 (mem_map.mpr ⟨other, isOther, sameKey⟩)
      rw [untouched, if_pos (decide_eq_true rfl), filter_cons_of_pos after,
        filter_cons_of_neg (by rw [before]; decide)]
    · have notFirst : key first ≠ key row := fun sameKey =>
        unique.1 (mem_map.mpr ⟨row, isLater, sameKey.symm⟩)
      rw [if_neg (by simpa using notFirst)]
      have later := ih unique.2 isLater
      cases ofKind : kind first with
      | true =>
        rw [filter_cons_of_pos ofKind, filter_cons_of_pos ofKind]
        exact (later.cons first).trans (List.Perm.swap _ _ _)
      | false =>
        rw [filter_cons_of_neg (by rw [ofKind]; decide),
          filter_cons_of_neg (by rw [ofKind]; decide)]
        exact later

end Tables

end MemoryService.Foundation
