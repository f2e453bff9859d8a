import Mathlib.Data.List.Infix

/-!
# Spending a budget along a list

Items are taken one after another for as long as what they cost fits; the first that does not
fit ends it.  What is taken is a prefix, and with costs that are not negative it is every prefix
that fits.
-/

namespace MemoryService.Foundation.Spending

open List

universe u

variable {Item : Type u} (cost : Item → ℤ)

def total (items : List Item) : ℤ := (items.map cost).foldr (· + ·) 0

/-- The items that `room` is enough for, up to the first that does not fit. -/
def affordable (room : ℤ) : List Item → List Item
  | [] => []
  | item :: rest =>
    if room < cost item then [] else item :: affordable (room - cost item) rest

variable {cost} {room : ℤ} {items part : List Item}

@[simp]
theorem total_nil : total cost [] = 0 := rfl

@[simp]
theorem total_cons (item : Item) : total cost (item :: items) = cost item + total cost items := rfl

theorem total_append (later : List Item) :
    total cost (items ++ later) = total cost items + total cost later := by
  induction items with
  | nil => exact (Int.zero_add _).symm
  | cons item rest ih =>
    rw [cons_append, total_cons, total_cons, ih, Int.add_assoc]

theorem total_perm {others : List Item} (same : items.Perm others) :
    total cost items = total cost others := by
  induction same with
  | nil => rfl
  | cons item _ ih => rw [total_cons, total_cons, ih]
  | swap first second rest =>
    rw [total_cons, total_cons, total_cons, total_cons]
    omega
  | trans _ _ first second => rw [first, second]

theorem total_reverse (items : List Item) : total cost items.reverse = total cost items := by
  induction items with
  | nil => rfl
  | cons item rest ih =>
    rw [reverse_cons, total_append, ih, total_cons, total_cons, total_nil]
    omega

theorem total_map {Other : Type*} (f : Other → Item) (others : List Other) :
    total cost (others.map f) = total (fun other => cost (f other)) others := by
  rw [total, map_map, total]
  rfl

theorem total_flatMap {Other : Type*} (f : Other → List Item) (others : List Other) :
    total cost (others.flatMap f) = total (fun other => total cost (f other)) others := by
  induction others with
  | nil => rfl
  | cons other rest ih =>
    rw [flatMap_cons, total_append, ih, total_cons]

theorem total_add (first second : Item → ℤ) :
    total (fun item => first item + second item) items =
      total first items + total second items := by
  induction items with
  | nil => rfl
  | cons item rest ih =>
    simp only [total_cons, ih]
    omega

theorem total_nonneg (nonneg : ∀ item, 0 ≤ cost item) : 0 ≤ total cost items := by
  induction items with
  | nil => exact Int.le_refl 0
  | cons item rest ih =>
    rw [total_cons]
    exact Int.add_nonneg (nonneg item) ih

theorem affordable_isPrefix : affordable cost room items <+: items := by
  induction items generalizing room with
  | nil => exact nil_prefix
  | cons item rest ih =>
    rw [affordable]
    split
    · exact nil_prefix
    · exact (prefix_cons_inj item).mpr ih

theorem total_eq_zero_iff (nonneg : ∀ item, 0 ≤ cost item) :
    total cost items = 0 ↔ ∀ item ∈ items, cost item = 0 := by
  induction items with
  | nil => simp
  | cons item rest ih =>
    have first := nonneg item
    have others : 0 ≤ total cost rest := total_nonneg nonneg
    rw [total_cons, forall_mem_cons, ← ih]
    omega

theorem total_affordable_le (isRoom : 0 ≤ room) :
    total cost (affordable cost room items) ≤ room := by
  induction items generalizing room with
  | nil => exact isRoom
  | cons item rest ih =>
    rw [affordable]
    split
    case isTrue => exact isRoom
    case isFalse fits =>
        have others := ih (Int.sub_nonneg_of_le (Int.not_lt.mp fits))
        rw [total_cons]
        omega

theorem room_of_affordable (taken : affordable cost room items ≠ [])
    (nonneg : ∀ item, 0 ≤ cost item) : 0 ≤ room := by
  cases items with
  | nil => exact absurd rfl taken
  | cons item rest =>
    rw [affordable] at taken
    split at taken
    case isTrue => exact absurd rfl taken
    case isFalse fits => exact Int.le_trans (nonneg item) (Int.not_lt.mp fits)

theorem prefix_affordable_iff (nonneg : ∀ item, 0 ≤ cost item) (isPrefix : part <+: items)
    (isSome : part ≠ []) : part <+: affordable cost room items ↔ total cost part ≤ room := by
  induction items generalizing room part with
  | nil => exact absurd (prefix_nil.mp isPrefix) isSome
  | cons item rest ih =>
    cases part with
    | nil => exact absurd rfl isSome
    | cons first others =>
      obtain ⟨rfl, isRest⟩ := cons_prefix_cons.mp isPrefix
      rw [affordable, total_cons]
      split
      case isTrue beyond =>
          have positive : 0 ≤ total cost others := total_nonneg nonneg
          constructor
          · exact fun none_ => absurd (prefix_nil.mp none_) isSome
          · intro fits
            omega
      case isFalse fits =>
          rw [prefix_cons_inj]
          by_cases isLast : others = []
          · subst isLast
            simpa using Int.not_lt.mp fits
          · rw [ih isRest isLast]
            omega

end MemoryService.Foundation.Spending
