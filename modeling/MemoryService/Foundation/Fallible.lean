import Mathlib.Data.List.Forall2

/-!
# Calls that may raise

What a call that answers has been through.
-/

namespace MemoryService.Foundation

open List

variable {Error α β : Type} {call : Except Error α} {y : β} {xs : List α}

theorem map_ok {f : α → β} (mapped : call.map f = .ok y) : ∃ x, call = .ok x ∧ f x = y := by
  cases call with
  | error raised => cases mapped
  | ok x => exact ⟨x, rfl, Except.ok.inj mapped⟩

theorem bind_ok {next : α → Except Error β}
    (done : (call >>= next) = .ok y) : ∃ x, call = .ok x ∧ next x = .ok y := by
  cases call with
  | error raised => cases done
  | ok x => exact ⟨x, rfl, done⟩

variable {f : α → Except Error β}

/-- Where every element is answered, so is the list, one answer for each in its order. -/
theorem mapM_ok_forall₂ {holds : α → β → Prop}
    (each : ∀ x ∈ xs, ∃ y, f x = .ok y ∧ holds x y) :
    ∃ ys, xs.mapM f = .ok ys ∧ Forall₂ holds xs ys := by
  induction xs with
  | nil => exact ⟨[], rfl, .nil⟩
  | cons x xs ih =>
    obtain ⟨y, isFirst, held⟩ := each x mem_cons_self
    obtain ⟨ys, isRest, allHeld⟩ := ih fun other member => each other (mem_cons_of_mem x member)
    refine ⟨y :: ys, ?_, .cons held allHeld⟩
    rw [mapM_cons, isFirst, isRest]
    rfl

theorem mapM_ok {holds : β → Prop}
    (each : ∀ x ∈ xs, ∃ y, f x = .ok y ∧ holds y) :
    ∃ ys, xs.mapM f = .ok ys ∧ ∀ y ∈ ys, holds y := by
  obtain ⟨ys, answered, related⟩ := mapM_ok_forall₂ each
  refine ⟨ys, answered, ?_⟩
  clear each answered
  induction related with
  | nil => exact fun _ member => absurd member not_mem_nil
  | cons held _ ih => exact forall_mem_cons.mpr ⟨held, ih⟩

theorem mapM_fails {x : α} (member : x ∈ xs)
    (fails : ∃ raised, f x = .error raised) : ∃ raised, xs.mapM f = .error raised := by
  induction xs with
  | nil => cases member
  | cons first rest ih =>
    rw [mapM_cons]
    cases isFirst : f first with
    | error raised => exact ⟨raised, rfl⟩
    | ok y =>
      rcases mem_cons.mp member with rfl | later
      · obtain ⟨raised, isRaised⟩ := fails
        rw [isRaised] at isFirst
        cases isFirst
      · obtain ⟨raised, isRaised⟩ := ih later
        rw [isRaised]
        exact ⟨raised, rfl⟩

theorem mapM_some {f : α → Option β} {g : α → β}
    (each : ∀ x ∈ xs, f x = some (g x)) : xs.mapM f = some (xs.map g) := by
  induction xs with
  | nil => rfl
  | cons x xs ih =>
    have others := ih fun other member => each other (mem_cons_of_mem x member)
    rw [mapM_cons, each x mem_cons_self, others]
    rfl

theorem mapM_eq_some {f : α → Option β} {ys : List β} (mapped : xs.mapM f = some ys) :
    xs.map f = ys.map some := by
  induction xs generalizing ys with
  | nil =>
    cases mapped
    rfl
  | cons x xs ih =>
    rw [mapM_cons] at mapped
    obtain ⟨first, isFirst, later⟩ := Option.bind_eq_some_iff.mp mapped
    obtain ⟨rest, isRest, whole⟩ := Option.bind_eq_some_iff.mp later
    cases whole
    rw [map_cons, isFirst, ih isRest, map_cons]

end MemoryService.Foundation
