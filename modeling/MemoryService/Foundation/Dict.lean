import MemoryService.Foundation.Table

/-!
# Insertion-ordered dictionaries

A dictionary is a list of entries with distinct keys, in the order in which the keys came.
Writing a key that is there replaces its value where it stands; a new key comes last.
-/

namespace MemoryService.Foundation

open List

universe u v w

structure Dict (κ : Type u) (α : Type v) where
  items : List (κ × α)
  distinct : (items.map Prod.fst).Nodup

namespace Dict

variable {κ : Type u} {α : Type v} {β : Type w}

def empty : Dict κ α where
  items := []
  distinct := nodup_nil

instance : EmptyCollection (Dict κ α) := ⟨empty⟩

def keys (dict : Dict κ α) : List κ := dict.items.map Prod.fst

def mapValues (change : α → β) (dict : Dict κ α) : Dict κ β where
  items := dict.items.map fun entry => (entry.1, change entry.2)
  distinct := by
    rw [map_map]
    exact dict.distinct

theorem keys_mapValues (change : α → β) (dict : Dict κ α) :
    (dict.mapValues change).keys = dict.keys :=
  map_map

variable [DecidableEq κ]

def get? (dict : Dict κ α) (key : κ) : Option α :=
  (dict.items.find? fun entry => entry.1 = key).map Prod.snd

/-- `dict.get(key, [])`. -/
def values (dict : Dict κ (List β)) (key : κ) : List β := (dict.get? key).getD []

def contains (dict : Dict κ α) (key : κ) : Bool := dict.items.any fun entry => entry.1 = key

variable {key : κ}

theorem contains_iff {dict : Dict κ α} : dict.contains key = true ↔ key ∈ dict.keys := by
  simp [contains, keys]

variable (dict : Dict κ α)

/-- `dict[key] = value`. -/
def set (key : κ) (value : α) : Dict κ α where
  items :=
    if dict.contains key then
      updateWhere (fun entry => entry.1 = key) (fun entry => (entry.1, value)) dict.items
    else dict.items ++ [(key, value)]
  distinct := by
    cases present : dict.contains key with
    | true => exact nodup_map_updateWhere (fun _ => rfl) dict.distinct
    | false =>
      refine nodup_map_insert (fun member => ?_) dict.distinct
      rw [contains_iff.mpr member] at present
      cases present

def ofList (entries : List (κ × α)) : Dict κ α :=
  entries.foldl (fun dict entry => dict.set entry.1 entry.2) empty

variable {value : α}

theorem get?_eq_some_iff {dict : Dict κ α} :
    dict.get? key = some value ↔ (key, value) ∈ dict.items := by
  rw [get?, Option.map_eq_some_iff]
  constructor
  · rintro ⟨entry, found, rfl⟩
    have isKey : entry.1 = key := by
      simpa using find?_some found
    rw [← isKey]
    exact mem_of_find?_eq_some found
  · intro member
    cases found : dict.items.find? fun entry => entry.1 = key with
    | none =>
      have absent := find?_eq_none.mp found (key, value) member
      simp at absent
    | some entry =>
      have isKey : entry.1 = key := by
        simpa using find?_some found
      have same : entry = (key, value) :=
        inj_on_of_nodup_map dict.distinct (mem_of_find?_eq_some found) member isKey
      exact ⟨entry, rfl, by rw [same]⟩

theorem mem_keys_of_get? {dict : Dict κ α}
    (found : dict.get? key = some value) : key ∈ dict.keys :=
  mem_map.mpr ⟨(key, value), get?_eq_some_iff.mp found, rfl⟩

theorem exists_get? {dict : Dict κ α} (member : key ∈ dict.keys) :
    ∃ value, dict.get? key = some value := by
  obtain ⟨entry, inItems, rfl⟩ := mem_map.mp member
  exact ⟨entry.2, get?_eq_some_iff.mpr inItems⟩

theorem mem_values {dict : Dict κ (List β)} {value : β} (member : value ∈ dict.values key) :
    ∃ held, dict.get? key = some held ∧ value ∈ held := by
  cases found : dict.get? key with
  | none =>
    rw [values, found] at member
    cases member
  | some held =>
    rw [values, found] at member
    exact ⟨held, rfl, member⟩

theorem get?_set_self (key : κ) (value : α) :
    (dict.set key value).get? key = some value := by
  rw [get?_eq_some_iff, set]
  dsimp only
  split
  next present =>
    obtain ⟨entry, inItems, isKey⟩ := any_eq_true.mp present
    rw [← of_decide_eq_true isKey]
    exact updated_mem inItems (decide_eq_true rfl)
  next => exact mem_append_right _ (mem_singleton_self _)

variable {other : κ}

theorem get?_set_other (value : α) (apart : other ≠ key) :
    (dict.set key value).get? other = dict.get? other := by
  rw [get?, get?, set]
  dsimp only
  split
  next =>
    rw [find?_updateWhere_other]
    intro entry isKey
    have otherKey : entry.1 ≠ other := by
      rw [of_decide_eq_true isKey]
      exact apart.symm
    exact ⟨decide_eq_false otherKey, decide_eq_false otherKey⟩
  next =>
    rw [find?_append, find?_singleton, if_neg (by simpa using apart.symm), Option.or_none]

theorem filter_items_set (shown : κ → Bool) (value : α)
    (hidden : shown key = false) :
    ((dict.set key value).items.filter fun entry => shown entry.1) =
      dict.items.filter fun entry => shown entry.1 := by
  rw [set]
  dsimp only
  split
  · induction dict.items with
    | nil => rfl
    | cons entry rest ih =>
      simp only [updateWhere, decide_eq_true_eq] at ih
      rw [updateWhere]
      by_cases same : entry.1 = key
      · simp [same, hidden, ih]
      · simp [same, filter_cons, ih]
  · simp [hidden]

theorem mem_keys_set (value : α) :
    other ∈ (dict.set key value).keys ↔ other = key ∨ other ∈ dict.keys := by
  by_cases same : other = key
  · subst same
    exact ⟨fun _ => .inl rfl, fun _ => mem_keys_of_get? (get?_set_self dict other value)⟩
  · constructor
    · intro member
      obtain ⟨held, found⟩ := exists_get? member
      rw [get?_set_other dict value same] at found
      exact .inr (mem_keys_of_get? found)
    · rintro (isKey | member)
      · exact absurd isKey same
      · obtain ⟨held, found⟩ := exists_get? member
        rw [← get?_set_other dict value same] at found
        exact mem_keys_of_get? found

theorem get?_ext {dict other : Dict κ α}
    (same : ∀ value, (key, value) ∈ dict.items ↔ (key, value) ∈ other.items) :
    dict.get? key = other.get? key :=
  Option.ext fun value => by rw [get?_eq_some_iff, get?_eq_some_iff, same]

/-- `dict.pop(key, None)`, as it leaves the dictionary. -/
def erase (key : κ) : Dict κ α where
  items := dict.items.filter fun entry => entry.1 ≠ key
  distinct := dict.distinct.sublist (filter_sublist.map _)

theorem get?_erase_self (key : κ) : (dict.erase key).get? key = none := by
  rw [Option.eq_none_iff_forall_ne_some]
  intro value found
  have member := get?_eq_some_iff.mp found
  simp [erase] at member

theorem get?_erase_other (apart : other ≠ key) :
    (dict.erase key).get? other = dict.get? other :=
  get?_ext fun value => by simp [erase, apart]

theorem get?_erase_eq_some {dict : Dict κ α}
    (found : (dict.erase key).get? other = some value) :
    other ≠ key ∧ dict.get? other = some value := by
  by_cases same : other = key
  · rw [same, get?_erase_self] at found
    cases found
  · exact ⟨same, (get?_erase_other dict same) ▸ found⟩

/-- `dict.move_to_end(key)`, where the key is there. -/
def moveToEnd (key : κ) : Dict κ α where
  items := (dict.erase key).items ++ ((dict.get? key).map fun value => (key, value)).toList
  distinct := by
    cases dict.get? key with
    | none =>
      rw [Option.map_none, Option.toList_none, append_nil]
      exact (dict.erase key).distinct
    | some value =>
      refine nodup_map_insert (fun member => ?_) (dict.erase key).distinct
      obtain ⟨entry, isKept, isKey⟩ := mem_map.mp member
      exact of_decide_eq_true (mem_filter.mp isKept).2 isKey

theorem get?_moveToEnd (key other : κ) :
    (dict.moveToEnd key).get? other = dict.get? other := by
  refine get?_ext fun value => ?_
  rw [moveToEnd, mem_append, Option.mem_toList, Option.map_eq_some_iff]
  by_cases same : other = key
  · subst same
    simp [erase, get?_eq_some_iff]
  · have apart : ¬ key = other := fun isKey => same isKey.symm
    simp [erase, same, apart]

theorem getLast?_moveToEnd {dict : Dict κ α} (found : dict.get? key = some value) :
    (dict.moveToEnd key).items.getLast? = some (key, value) := by
  change ((dict.erase key).items ++
      ((dict.get? key).map fun value => (key, value)).toList).getLast? =
    some (key, value)
  rw [found, Option.map_some, Option.toList_some, getLast?_concat]

theorem getLast?_erase {dict : Dict κ α}
    (isLast : dict.items.getLast? = some (key, value)) (apart : key ≠ other) :
    (dict.erase other).items.getLast? = some (key, value) := by
  obtain ⟨before, isItems⟩ := getLast?_eq_some_iff.mp isLast
  change (dict.items.filter fun entry => entry.1 ≠ other).getLast? = some (key, value)
  rw [isItems, filter_append, filter_cons_of_pos (by simpa using apart),
    filter_nil, getLast?_concat]

theorem get?_mapValues (change : α → β) (dict : Dict κ α) (key : κ) :
    (dict.mapValues change).get? key = (dict.get? key).map change := by
  rw [get?, get?, mapValues, find?_map, Option.map_map, Option.map_map]
  rfl

/-- The property holds of every key with its value. -/
def All (holds : κ → α → Prop) (dict : Dict κ α) : Prop :=
  ∀ entry ∈ dict.items, holds entry.1 entry.2

section All

variable {holds : κ → α → Prop} {dict : Dict κ α}

omit [DecidableEq κ] in
theorem all_empty : All holds (∅ : Dict κ α) := by
  intro entry member
  cases member

theorem All.get? (all : All holds dict)
    (found : dict.get? key = some value) : holds key value :=
  all (key, value) (get?_eq_some_iff.mp found)

theorem All.set (all : All holds dict) (new : holds key value) :
    All holds (dict.set key value) := by
  intro entry member
  rw [Dict.set] at member
  dsimp only at member
  split at member
  · rcases mem_updateWhere_cases member with ⟨old, -, isKey, rfl⟩ | ⟨kept, -⟩
    · rw [of_decide_eq_true isKey]
      exact new
    · exact all entry kept
  · rcases mem_concat.mp member with old | rfl
    · exact all entry old
    · exact new

omit [DecidableEq κ] in
theorem All.mapValues {changed : κ → β → Prop} {change : α → β} (all : All holds dict)
    (carries : ∀ key value, holds key value → changed key (change value)) :
    All changed (dict.mapValues change) := by
  intro entry member
  obtain ⟨old, inItems, rfl⟩ := mem_map.mp member
  exact carries old.1 old.2 (all old inItems)

omit [DecidableEq κ] in
theorem all_foldl {γ : Type w} {write : Dict κ α → γ → Dict κ α} {steps : List γ}
    (kept : ∀ dict step, All holds dict → All holds (write dict step))
    (all : All holds dict) : All holds (steps.foldl write dict) := by
  induction steps generalizing dict with
  | nil => exact all
  | cons step later ih => exact ih (kept dict step all)

end All

end Dict

end MemoryService.Foundation
