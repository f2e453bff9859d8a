import Mathlib.Order.Bounds.Basic

/-!
# Spans of time, and bounds

A span holds from its start up to its stop, the stop not included; either end may be open.
-/

namespace MemoryService.Foundation

universe u

/-- The half-open interval `[start, stop)`. -/
structure Span (T : Type u) where
  start : Option T
  stop : Option T
  deriving DecidableEq

namespace Span

variable {T : Type u} [LinearOrder T] {span other : Span T} {instant limit : T}

def Holds (span : Span T) (instant : T) : Prop :=
  (∀ start ∈ span.start, start ≤ instant) ∧ ∀ stop ∈ span.stop, instant < stop

def closeAt (span : Span T) (instant : T) : Span T :=
  { span with stop := some (span.stop.getD instant) }

def ClosedBy (span : Span T) (limit : T) : Prop :=
  ∃ stop, span.stop = some stop ∧ (∀ start ∈ span.start, start ≤ stop) ∧ stop ≤ limit

def Fits (span : Span T) (limit : T) : Prop :=
  (∀ start ∈ span.start, start ≤ span.stop.getD limit) ∧ ∀ stop ∈ span.stop, stop ≤ limit
deriving Decidable

/-- It ends before it starts. -/
def Void (span : Span T) : Prop := ∃ start ∈ span.start, ∃ stop ∈ span.stop, stop ≤ start

theorem closedBy_of_stop {stop : T} (closed : span.stop = some stop) :
    span.ClosedBy limit ↔ (∀ start ∈ span.start, start ≤ stop) ∧ stop ≤ limit := by
  constructor
  · intro closedBy
    obtain ⟨same, isStop, ordered, early⟩ := closedBy
    rw [closed] at isStop
    cases isStop
    exact ⟨ordered, early⟩
  · intro bounds
    exact ⟨stop, closed, bounds⟩

theorem closeAt_closedBy_iff : (span.closeAt limit).ClosedBy limit ↔ span.Fits limit := by
  have closed : (span.closeAt limit).stop = some (span.stop.getD limit) := rfl
  rw [closedBy_of_stop closed, Fits]
  refine and_congr_right fun _ => ?_
  cases isStop : span.stop with
  | none => simp
  | some stop => simp

theorem Void.not_holds (void : span.Void) : ¬span.Holds instant := by
  obtain ⟨start, isStart, stop, isStop, early⟩ := void
  intro holds
  have started : start ≤ instant := holds.1 start isStart
  have stopped : instant < stop := holds.2 stop isStop
  exact absurd (lt_of_lt_of_le stopped early) (not_lt_of_ge started)

theorem ClosedBy.apart (closedBy : span.ClosedBy limit) (starts : other.start = some limit) :
    ¬(span.Holds instant ∧ other.Holds instant) := by
  intro both
  obtain ⟨stop, isStop, -, early⟩ := closedBy
  have started : limit ≤ instant := both.2.1 limit starts
  have stopped : instant < stop := both.1.2 stop isStop
  exact absurd (lt_of_lt_of_le stopped early) (not_lt_of_ge started)

end Span

section Bounds

variable {T : Type u} [LinearOrder T] {bounds : Option (T × T)} {found : Set T} {x : T}

def Bounds (found : Set T) : Option (T × T) → Prop
  | none => found = ∅
  | some (first, last) => IsLeast found first ∧ IsGreatest found last

def noted (bounds : Option (T × T)) (x : T) : Option (T × T) :=
  some (bounds.elim (x, x) fun bounds => (min bounds.1 x, max bounds.2 x))

theorem Bounds.insert (isBounds : Bounds found bounds) (x : T) :
    Bounds (insert x found) (noted bounds x) := by
  cases bounds with
  | none =>
    rw [Bounds] at isBounds
    rw [isBounds, insert_empty_eq]
    exact ⟨isLeast_singleton, isGreatest_singleton⟩
  | some ends =>
    rw [noted, Option.elim_some, min_comm, max_comm]
    exact ⟨isBounds.1.insert x, isBounds.2.insert x⟩

theorem Bounds.of_mem (isBounds : Bounds found bounds) (member : x ∈ found) :
    ∃ first last, bounds = some (first, last) ∧ first ≤ x ∧ x ≤ last := by
  cases bounds with
  | none =>
    rw [Bounds] at isBounds
    rw [isBounds] at member
    exact absurd member (Set.notMem_empty x)
  | some ends => exact ⟨ends.1, ends.2, rfl, isBounds.1.2 member, isBounds.2.2 member⟩

theorem Bounds.between_iff {first last : T} (isBounds : Bounds found (some (first, last))) :
    first ≤ x ∧ x ≤ last ↔ (∃ y ∈ found, y ≤ x) ∧ ∃ y ∈ found, x ≤ y := by
  constructor
  · intro ⟨isAfter, isBefore⟩
    exact ⟨⟨first, isBounds.1.1, isAfter⟩, last, isBounds.2.1, isBefore⟩
  · intro ⟨⟨low, isLow, isAfter⟩, high, isHigh, isBefore⟩
    exact ⟨le_trans (isBounds.1.2 isLow) isAfter, le_trans isBefore (isBounds.2.2 isHigh)⟩

end Bounds

end MemoryService.Foundation
