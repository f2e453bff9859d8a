import Mathlib.Order.Basic

/-!
# A slot whose value expires

A cache keeps a value under a key until it expires. Whoever sets it if it is absent, or replaces
it, may have read what is written long before.
-/

namespace MemoryService.Foundation

universe u

structure Expiring (Value : Type u) where
  value : Value
  droppedAt : Nat

namespace Expiring

variable {Value : Type u}

def live (now : Nat) (slot : Option (Expiring Value)) : Option Value :=
  slot.bind fun held => if now < held.droppedAt then some held.value else none

def setIfAbsent (now : Nat) (held : Expiring Value) (slot : Option (Expiring Value)) :
    Option (Expiring Value) :=
  if (live now slot).isSome then slot else some held

/-- The instant has passed, or a value of the kind stays until it. -/
def Covered (kind : Value → Prop) (now until_ : Nat) (slot : Option (Expiring Value)) : Prop :=
  until_ ≤ now ∨ ∃ held, slot = some held ∧ kind held.value ∧ until_ ≤ held.droppedAt

variable {kind other : Value → Prop} {now later until_ : Nat} {slot : Option (Expiring Value)}
  {held : Expiring Value}

theorem live_some (notDropped : now < held.droppedAt) : live now (some held) = some held.value :=
  if_pos notDropped

theorem live_eq_some {value : Value} (isLive : live now slot = some value) :
    ∃ held, slot = some held ∧ held.value = value := by
  obtain ⟨held, isHeld, rest⟩ := Option.bind_eq_some_iff.mp isLive
  obtain ⟨-, rest⟩ := Option.ite_none_right_eq_some.mp rest
  cases rest
  exact ⟨held, isHeld, rfl⟩

section

variable (covered : Covered kind now until_ slot)
include covered

theorem Covered.live (inTime : now < until_) :
    ∃ value, Expiring.live now slot = some value ∧ kind value := by
  obtain ⟨held, rfl, isKind, stays⟩ := covered.resolve_left (Nat.not_le_of_lt inTime)
  exact ⟨held.value, live_some (Nat.lt_of_lt_of_le inTime stays), isKind⟩

theorem Covered.mono (notBefore : now ≤ later)
    (weaker : ∀ value, kind value → other value) : Covered other later until_ slot := by
  rcases covered with passed | ⟨held, isHeld, isKind, stays⟩
  · exact .inl (Nat.le_trans passed notBefore)
  · exact .inr ⟨held, isHeld, weaker _ isKind, stays⟩

theorem Covered.of_le {earlier : Nat}
    (notAfter : earlier ≤ until_) : Covered kind now earlier slot :=
  covered.imp (Nat.le_trans notAfter) fun ⟨held, isHeld, isKind, stays⟩ =>
    ⟨held, isHeld, isKind, Nat.le_trans notAfter stays⟩

theorem Covered.setIfAbsent : Covered kind now until_ (setIfAbsent now held slot) := by
  rw [Expiring.setIfAbsent]
  split
  case isTrue => exact covered
  case isFalse absent =>
    rcases Nat.lt_or_ge now until_ with inTime | passed
    · obtain ⟨value, isLive, -⟩ := covered.live inTime
      exact absurd (by rw [isLive]; rfl) absent
    · exact .inl passed

end

theorem covered_set (isKind : kind held.value) (stays : until_ ≤ held.droppedAt) :
    Covered kind now until_ (some held) :=
  .inr ⟨held, rfl, isKind, stays⟩

theorem Covered.passed (covered : Covered kind now until_ slot)
    (notFound : ∀ value, Expiring.live now slot = some value → ¬kind value) : until_ ≤ now := by
  refine Nat.le_of_not_lt fun inTime => ?_
  obtain ⟨value, isLive, isKind⟩ := covered.live inTime
  exact notFound value isLive isKind

theorem setIfAbsent_cases {after : Expiring Value}
    (isAfter : Expiring.setIfAbsent now held slot = some after) :
    (slot = some after) ∨ (after = held ∧ Expiring.live now slot = none) := by
  rw [Expiring.setIfAbsent] at isAfter
  split at isAfter
  case isTrue => exact .inl isAfter
  case isFalse absent =>
    exact .inr ⟨(Option.some.inj isAfter).symm, by simpa using absent⟩

end Expiring

end MemoryService.Foundation
