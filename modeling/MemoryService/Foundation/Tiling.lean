import Mathlib.Data.Int.Notation
import Mathlib.Data.List.Basic

/-!
# Ranges of whole numbers, laid end to end

A range is given by its first and its last number. Parts numbered from one tile a whole when the
first part starts it, the last part ends it, and each part starts right after the one before.
-/

namespace MemoryService.Foundation

abbrev Range := ℤ × ℤ

def Range.Holds (range : Range) (x : ℤ) : Prop := range.1 ≤ x ∧ x ≤ range.2
deriving Decidable

/-- The parts numbered from one to `count`, end to end. -/
structure Tiles (part : ℕ → Range) (count : ℕ) (whole : Range) : Prop where
  somePart : 1 ≤ count
  first : (part 1).1 = whole.1
  last : (part count).2 = whole.2
  next : ∀ n, 1 ≤ n → n < count → (part (n + 1)).1 = (part n).2 + 1
  ordered : ∀ n, 1 ≤ n → n ≤ count → (part n).1 ≤ (part n).2

namespace Tiles

variable {part : ℕ → Range} {count : ℕ} {whole : Range} (tiles : Tiles part count whole)
include tiles

theorem congr {other : ℕ → Range}
    (same : ∀ n, 1 ≤ n → n ≤ count → other n = part n) : Tiles other count whole where
  somePart := tiles.somePart
  first := by rw [same 1 (by omega) tiles.somePart, tiles.first]
  last := by rw [same count tiles.somePart (by omega), tiles.last]
  next n isPart within := by
    rw [same n isPart (by omega), same (n + 1) (by omega) within]
    exact tiles.next n isPart within
  ordered n isPart within := by
    rw [same n isPart within]
    exact tiles.ordered n isPart within

theorem apart {m n : ℕ} (isPart : 1 ≤ m) (before : m < n)
    (within : n ≤ count) : (part m).2 < (part n).1 := by
  induction n with
  | zero => omega
  | succ n ih =>
    have starts := tiles.next n (by omega) (by omega)
    by_cases isNext : m = n
    · rw [isNext]
      omega
    · have earlier := ih (by omega) (by omega)
      have ordered := tiles.ordered n (by omega) (by omega)
      omega

theorem unique {m n : ℕ} {x : ℤ} (isPart : 1 ≤ m ∧ m ≤ count)
    (isOther : 1 ≤ n ∧ n ≤ count) (inPart : (part m).Holds x) (inOther : (part n).Holds x) :
    m = n := by
  have first : x ≤ (part m).2 := inPart.2
  have second : x ≤ (part n).2 := inOther.2
  have third : (part m).1 ≤ x := inPart.1
  have fourth : (part n).1 ≤ x := inOther.1
  by_contra differ
  rcases Nat.lt_or_gt_of_ne differ with before | after
  · have ended := tiles.apart isPart.1 before isOther.2
    omega
  · have ended := tiles.apart isOther.1 after isPart.2
    omega

theorem holds_iff {m : ℕ} {x : ℤ} (isPart : 1 ≤ m ∧ m ≤ count) (inPart : (part m).Holds x) :
    ∀ n, 1 ≤ n → n ≤ count → ((part n).Holds x ↔ n = m) := by
  intro n atLeast atMost
  constructor
  · intro inOther
    exact tiles.unique ⟨atLeast, atMost⟩ isPart inOther inPart
  · intro same
    rw [same]
    exact inPart

theorem ordered_across {m n : ℕ} (isPart : 1 ≤ m)
    (before : m ≤ n) (within : n ≤ count) : (part m).1 ≤ (part n).2 := by
  have first := tiles.ordered m isPart (by omega)
  by_cases same : m = n
  · rw [← same]
    exact first
  · have ended := tiles.apart isPart (by omega : m < n) within
    have second := tiles.ordered n (by omega) within
    omega

end Tiles

def partAt (part : ℤ → ℕ → Range) (count : ℕ) (index : ℤ) : Range :=
  part (index / count) ((index % count).toNat + 1)

section

variable {part : ℤ → ℕ → Range} {count : ℕ} {whole : ℤ → Range}

theorem partAt_next (tiles : ∀ n, Tiles (part n) count (whole n))
    (onward : ∀ n, (whole (n + 1)).1 = (whole n).2 + 1) (index : ℤ) :
    (partAt part count (index + 1)).1 = (partAt part count index).2 + 1 := by
  have somePart := (tiles 0).somePart
  have isPositive : (0 : ℤ) < count := by omega
  have parted : index % count + count * (index / count) = index := Int.emod_add_mul_ediv _ _
  have started := Int.emod_nonneg index (by omega : (count : ℤ) ≠ 0)
  have notOver := Int.emod_lt_of_pos index isPositive
  rw [partAt, partAt]
  by_cases inside : index % count + 1 < count
  · obtain ⟨sameWhole, isNext⟩ := (Int.ediv_emod_unique (q := index / count)
      (r := index % count + 1) (a := index + 1) isPositive).mpr ⟨by omega, by omega, inside⟩
    have stepped := (tiles (index / count)).next ((index % count).toNat + 1) (by omega) (by omega)
    rw [sameWhole, isNext, show (index % count + 1).toNat = (index % count).toNat + 1 by omega]
    exact stepped
  · have shifted : (0 : ℤ) + count * (index / count + 1) = index + 1 := by
      rw [Int.mul_add]
      omega
    obtain ⟨nextWhole, isFirst⟩ := (Int.ediv_emod_unique (q := index / count + 1) (r := 0)
      (a := index + 1) isPositive).mpr ⟨shifted, Int.le_refl 0, isPositive⟩
    rw [nextWhole, isFirst, Int.toNat_zero, (tiles _).first, onward,
      show (index % count).toNat + 1 = count by omega, (tiles _).last]

theorem partAt_number (somePart : 1 ≤ count) (index : ℤ) :
    1 ≤ (index % count).toNat + 1 ∧ (index % count).toNat + 1 ≤ count := by
  have notOver := Int.emod_lt_of_pos index (by omega : (0 : ℤ) < count)
  omega

theorem partAt_own (somePart : 1 ≤ count) {n : ℤ} {number : ℕ}
    (isPart : 1 ≤ number ∧ number ≤ count) :
    partAt part count (n * count + (number - 1)) = part n number := by
  obtain ⟨sameWhole, isNumber⟩ := (Int.ediv_emod_unique (q := n) (r := (number : ℤ) - 1)
    (a := n * count + (number - 1)) (by omega : (0 : ℤ) < count)).mpr
    ⟨by rw [Int.mul_comm]; omega, by omega, by omega⟩
  rw [partAt, sameWhole, isNumber, show ((number : ℤ) - 1).toNat + 1 = number by omega]

end

/-- Each group of `size` neighbouring parts, from the start of its first to the end of its
last. -/
def grouped (part : ℕ → Range) (size n : ℕ) : Range :=
  ((part (size * (n - 1) + 1)).1, (part (size * n)).2)

theorem Tiles.grouped {part : ℕ → Range} {size count : ℕ} {whole : Range}
    (tiles : Tiles part (size * count) whole) : Tiles (grouped part size) count whole where
  somePart := by
    have somePart := tiles.somePart
    exact Nat.pos_of_ne_zero fun none => by simp [none] at somePart
  first := by
    have first := tiles.first
    simpa [Foundation.grouped] using first
  last := tiles.last
  next n isGroup within := by
    have somePart := tiles.somePart
    have less : size * (n + 1) ≤ size * count := Nat.mul_le_mul_left size within
    have positive : 1 ≤ size := Nat.pos_of_ne_zero fun none => by simp [none] at somePart
    have expand : size * (n + 1) = size * n + size := Nat.mul_succ size n
    have atLeast : 1 * 1 ≤ size * n := Nat.mul_le_mul positive isGroup
    exact tiles.next (size * n) (by omega) (by omega)
  ordered n isGroup within := by
    have somePart := tiles.somePart
    have positive : 1 ≤ size := Nat.pos_of_ne_zero fun none => by simp [none] at somePart
    have less : size * n ≤ size * count := Nat.mul_le_mul_left size within
    have expand : size * n = size * (n - 1) + size := by
      rw [← Nat.mul_succ]
      congr 1
      omega
    exact tiles.ordered_across (by omega) (by omega) less

theorem Tiles.holds_grouped {part : ℕ → Range} {size count : ℕ} {whole : Range}
    (tiles : Tiles part (size * count) whole) {m : ℕ} {x : ℤ}
    (isPart : 1 ≤ m ∧ m ≤ size * count) (inPart : (part m).Holds x) :
    (1 ≤ (m - 1) / size + 1 ∧ (m - 1) / size + 1 ≤ count) ∧
      (Foundation.grouped part size ((m - 1) / size + 1)).Holds x := by
  have positive : 0 < size := Nat.pos_of_ne_zero fun none => by
    rw [none, Nat.zero_mul] at isPart
    omega
  have division := Nat.div_add_mod (m - 1) size
  have rest := Nat.mod_lt (m - 1) positive
  have expand : size * ((m - 1) / size + 1) = size * ((m - 1) / size) + size := Nat.mul_succ size _
  have within : (m - 1) / size < count := by
    have inside : m - 1 < size * count := by omega
    rw [Nat.div_lt_iff_lt_mul positive, Nat.mul_comm]
    exact inside
  have groupWithin : size * ((m - 1) / size + 1) ≤ size * count := Nat.mul_le_mul_left size within
  refine ⟨⟨Nat.le_add_left 1 _, within⟩, ?_, ?_⟩
  · have firstOrdered : (part (size * ((m - 1) / size) + 1)).1 ≤ (part m).1 := by
      by_cases same : size * ((m - 1) / size) + 1 = m
      · exact Int.le_of_eq (by rw [same])
      · have started := tiles.ordered (size * ((m - 1) / size) + 1) (by omega) (by omega)
        have ended := tiles.apart (by omega : 1 ≤ size * ((m - 1) / size) + 1)
          (by omega : _ < m) isPart.2
        omega
    exact Int.le_trans firstOrdered inPart.1
  · have lastOrdered : (part m).2 ≤ (part (size * ((m - 1) / size + 1))).2 := by
      by_cases same : m = size * ((m - 1) / size + 1)
      · exact Int.le_of_eq (by rw [← same])
      · have ended := tiles.apart isPart.1 (by omega : m < size * ((m - 1) / size + 1)) groupWithin
        have ordered := tiles.ordered (size * ((m - 1) / size + 1)) (by omega) groupWithin
        omega
    exact Int.le_trans inPart.2 lastOrdered

variable (lengths : List ℕ)

/-- The first `n` lengths together. -/
def upTo (n : ℕ) : ℕ := (lengths.take n).foldr (· + ·) 0

theorem upTo_zero : upTo lengths 0 = 0 := rfl

theorem upTo_cons (length : ℕ) (lengths : List ℕ) (n : ℕ) :
    upTo (length :: lengths) (n + 1) = length + upTo lengths n := rfl

theorem upTo_succ (n : ℕ) :
    upTo lengths (n + 1) = upTo lengths n + lengths.getD n 0 := by
  induction lengths generalizing n with
  | nil => simp [upTo]
  | cons length lengths ih =>
    cases n with
    | zero => simp [upTo]
    | succ n =>
      rw [upTo_cons, upTo_cons, ih, Nat.add_assoc]
      rfl

theorem getD_positive {lengths : List ℕ} (positive : ∀ length ∈ lengths, 1 ≤ length) {n : ℕ}
    (isPart : n < lengths.length) : 1 ≤ lengths.getD n 0 := by
  apply positive
  simp [isPart]

theorem upTo_mono {m n : ℕ} (notLater : m ≤ n) :
    upTo lengths m ≤ upTo lengths n := by
  induction notLater with
  | refl => exact Nat.le_refl (upTo lengths m)
  | step _ ih =>
    rw [upTo_succ]
    omega

/-- Ranges of `unit` times the given lengths, one after another. -/
def stretch (start : ℤ) (unit : ℕ) (lengths : List ℕ) (n : ℕ) : Range :=
  (start + unit * upTo lengths (n - 1), start + unit * upTo lengths n - 1)

theorem stretch_tiles {lengths : List ℕ} (start : ℤ) {unit : ℕ} (isUnit : 1 ≤ unit)
    (somePart : 1 ≤ lengths.length) (positive : ∀ length ∈ lengths, 1 ≤ length) :
    Tiles (stretch start unit lengths) lengths.length
      (start, start + unit * upTo lengths lengths.length - 1) where
  somePart := somePart
  first := by simp [stretch, upTo_zero]
  last := rfl
  next n isPart within := by
    simp only [stretch, Nat.add_sub_cancel]
    omega
  ordered n isPart within := by
    have isIndex : n - 1 < lengths.length := by omega
    have grown := upTo_succ lengths (n - 1)
    have sameNumber : n - 1 + 1 = n := by omega
    rw [sameNumber] at grown
    have isLong := getD_positive positive isIndex
    have longer : unit * (upTo lengths (n - 1) + 1) ≤ unit * upTo lengths n :=
      Nat.mul_le_mul_left unit (by omega)
    rw [Nat.mul_succ] at longer
    simp only [stretch]
    omega

end MemoryService.Foundation
