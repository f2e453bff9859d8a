import Mathlib.Order.Basic

/-!
# Who has the last word

Entries of a log are ranked.  The decisive one is the latest among those of the highest
rank: nothing before it ranks higher, and everything after it ranks lower.
-/

namespace MemoryService.Foundation

open List

variable {α ρ : Type} [Preorder ρ] (rank : α → ρ)

def Decisive (log : List α) (entry : α) : Prop :=
  ∃ earlier later, log = earlier ++ entry :: later ∧
    (∀ other ∈ earlier, rank other ≤ rank entry) ∧ ∀ other ∈ later, rank other < rank entry

def Outranked (log : List α) (entry : α) : Prop := ∃ other ∈ log, rank entry < rank other

variable {rank} {log : List α} {entry next : α}

section

variable (decisive : Decisive rank log entry)
include decisive

theorem Decisive.rank_le :
    ∀ other ∈ log, rank other ≤ rank entry := by
  obtain ⟨earlier, later, rfl, notAbove, below⟩ := decisive
  intro other member
  rcases mem_append.mp member with isEarlier | isLater
  · exact notAbove other isEarlier
  · rcases mem_cons.mp isLater with isEntry | isAfter
    · rw [isEntry]
    · exact (below other isAfter).le

theorem Decisive.mem : entry ∈ log := by
  obtain ⟨earlier, later, rfl, -, -⟩ := decisive
  exact mem_append_right earlier mem_cons_self

theorem Decisive.outranked_iff :
    Outranked rank log next ↔ rank next < rank entry := by
  constructor
  · intro ⟨other, member, above⟩
    exact lt_of_lt_of_le above (decisive.rank_le other member)
  · intro below
    exact ⟨entry, decisive.mem, below⟩

end

theorem decisive_singleton (entry : α) : Decisive rank [entry] entry :=
  ⟨[], [], rfl, by simp, by simp⟩

theorem Decisive.replaced (decisive : Decisive rank log entry) (asHigh : rank entry ≤ rank next) :
    Decisive rank (log ++ [next]) next := by
  refine ⟨log, [], rfl, ?_, by simp⟩
  intro other member
  exact (decisive.rank_le other member).trans asHigh

theorem Decisive.kept (decisive : Decisive rank log entry) (below : rank next < rank entry) :
    Decisive rank (log ++ [next]) entry := by
  obtain ⟨earlier, later, rfl, notAbove, allBelow⟩ := decisive
  refine ⟨earlier, later ++ [next], by simp, notAbove, ?_⟩
  intro other member
  rcases mem_append.mp member with isLater | isNext
  · exact allBelow other isLater
  · rw [mem_singleton.mp isNext]
    exact below

end MemoryService.Foundation
