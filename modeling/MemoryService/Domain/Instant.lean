import Mathlib.Algebra.Order.Ring.Rat

/-!
# Instants

An instant in UTC is counted in microseconds from the start of year 1, the earliest the service
can hold.
-/

namespace MemoryService.Domain

/-- A point in time, in microseconds since 0001-01-01T00:00:00 UTC. -/
structure Instant where
  micros : Nat
  deriving DecidableEq

namespace Instant

theorem micros_injective : Function.Injective micros := by
  intro first second same
  cases first
  cases second
  exact congrArg mk same

instance : LE Instant := ⟨fun first second => first.micros ≤ second.micros⟩

instance : LT Instant := ⟨fun first second => first.micros < second.micros⟩

instance decidableLE (first second : Instant) : Decidable (first ≤ second) :=
  inferInstanceAs (Decidable (first.micros ≤ second.micros))

instance decidableLT (first second : Instant) : Decidable (first < second) :=
  inferInstanceAs (Decidable (first.micros < second.micros))

theorem le_iff {first second : Instant} : first ≤ second ↔ first.micros ≤ second.micros := Iff.rfl

theorem lt_iff {first second : Instant} : first < second ↔ first.micros < second.micros := Iff.rfl

instance : LinearOrder Instant where
  le_refl instant := Nat.le_refl instant.micros
  le_trans _ _ _ first second := Nat.le_trans first second
  lt_iff_le_not_ge first second := by
    rw [lt_iff, le_iff, le_iff]
    omega
  le_antisymm _ _ first second := micros_injective (Nat.le_antisymm first second)
  le_total first second := Nat.le_total first.micros second.micros
  toDecidableLE := decidableLE

def secondsPerDay : Nat := 86400

def microsPerSecond : Nat := 1000000

variable (instant : Instant)

def after (seconds : Nat) : Instant := ⟨instant.micros + seconds * microsPerSecond⟩

def civil (days : Nat) : Nat × Nat × Nat :=
  let shifted := days + 306
  let dayOfEra := shifted % 146097
  let yearOfEra := (dayOfEra - dayOfEra / 1460 + dayOfEra / 36524 - dayOfEra / 146096) / 365
  let dayOfYear := dayOfEra - (365 * yearOfEra + yearOfEra / 4 - yearOfEra / 100)
  let shiftedMonth := (5 * dayOfYear + 2) / 153
  let day := dayOfYear - (153 * shiftedMonth + 2) / 5 + 1
  let month := if shiftedMonth < 10 then shiftedMonth + 3 else shiftedMonth - 9
  let year := yearOfEra + shifted / 146097 * 400
  (if month ≤ 2 then year + 1 else year, month, day)

def padded (width n : Nat) : List Char := (Nat.toDigits 10 n).leftpad width '0'

def date : Nat × Nat × Nat := civil (instant.micros / microsPerSecond / secondsPerDay)

/-- The calendar date, `YYYY-MM-DD`. -/
def dateIsoformat : List Char :=
  let (year, month, day) := instant.date
  padded 4 year ++ '-' :: (padded 2 month ++ '-' :: padded 2 day)

/-- `YYYY-MM-DDTHH:MM:SS[.ffffff]+00:00`. -/
def isoformat : String :=
  let seconds := instant.micros / microsPerSecond % secondsPerDay
  let micros := instant.micros % microsPerSecond
  let fraction := if micros = 0 then [] else '.' :: padded 6 micros
  .ofList
    (instant.dateIsoformat ++ 'T' :: padded 2 (seconds / 3600) ++
      ':' :: padded 2 (seconds / 60 % 60) ++ ':' :: padded 2 (seconds % 60) ++
      fraction ++ "+00:00".toList)

example :
    isoformat ⟨63839762523456789⟩ = "2024-01-02T03:22:03.456789+00:00" := by
  decide

end Instant

end MemoryService.Domain
