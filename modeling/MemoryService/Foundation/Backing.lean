import Mathlib.Data.List.Perm.Subperm

/-!
# Uses and supplies

Uses are backed by supplies of the same key when each use can have a supply of its own.  That
is a matter of counting: no key is used more often than it is supplied.
-/

namespace MemoryService.Foundation

open List

universe u

variable {κ : Type u}

def Backed (uses supplies : List κ) : Prop := uses.Subperm supplies

namespace Backed

variable {uses others supplies : List κ} {key : κ}

theorem nil (supplies : List κ) : Backed [] supplies := nil_subperm

section

variable (backed : Backed uses supplies)
include backed

theorem perm (same : others.Perm uses) : Backed others supplies := same.subperm.trans backed

theorem supply (more : List κ) : Backed uses (supplies ++ more) :=
  backed.trans (sublist_append_left supplies more).subperm

theorem use [BEq κ] [LawfulBEq κ]
    (left : uses.count key < supplies.count key) : Backed (key :: uses) supplies := by
  refine subperm_ext_iff.mpr fun other _ => ?_
  by_cases same : other = key
  · subst same
    rw [count_cons_self]
    exact left
  · rw [count_cons_of_ne (Ne.symm same)]
    exact backed.count_le other

end

end Backed

end MemoryService.Foundation
