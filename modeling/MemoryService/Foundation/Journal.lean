import Mathlib.Data.List.Basic

/-!
# A journal of commits

A store is the journal of what was committed to it, and a read is made at an instant: it sees the
first so many entries.
-/

namespace MemoryService.Foundation.Journal

open List

universe u v

variable {Entry : Type u} {Value : Type v} (part : Entry → Option Value) (journal : List Entry)

/-- What a read at instant `n` sees of the part, the oldest first. -/
def seen (n : Nat) : List Value := (journal.take n).filterMap part

def version (n : Nat) : Nat := (seen part journal n).length

/-- The value that a read at instant `n` returns. -/
def valueAt (n : Nat) : Option Value := (seen part journal n).getLast?

variable {part} {journal later : List Entry} {m n : Nat}

section

variable (within : n ≤ journal.length)
include within

theorem seen_append :
    seen part (journal ++ later) n = seen part journal n := by
  rw [seen, seen, take_append_of_le_length within]

theorem version_append :
    version part (journal ++ later) n = version part journal n := by
  rw [version, version, seen_append within]

theorem valueAt_append :
    valueAt part (journal ++ later) n = valueAt part journal n := by
  rw [valueAt, valueAt, seen_append within]

end

/-- A later read has seen at least as much. -/
theorem version_mono (isLater : m ≤ n) : version part journal m ≤ version part journal n :=
  ((take_sublist_take_left isLater).filterMap part).length_le

theorem valueAt_committed {entry : Entry} {value : Value} (isPart : part entry = some value) :
    valueAt part (journal ++ [entry]) (journal.length + 1) = some value := by
  rw [valueAt, seen, take_of_length_le (by simp), filterMap_append, getLast?_append,
    filterMap_cons_some isPart]
  rfl

theorem version_eq_zero (none_ : ∀ entry ∈ journal, part entry = none) :
    version part journal n = 0 := by
  rw [version, seen, length_eq_zero_iff, filterMap_eq_nil_iff]
  exact fun entry isEntry => none_ entry (mem_of_mem_take isEntry)

end MemoryService.Foundation.Journal
