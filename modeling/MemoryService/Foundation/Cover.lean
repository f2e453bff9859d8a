import Mathlib.Data.List.Pairwise

/-!
# Pieces of a line of positions

A piece is given by its first position and the one after its last.
-/

namespace MemoryService.Foundation

open List

abbrev Piece := Nat × Nat

namespace Piece

def Has (piece : Piece) (i : Nat) : Prop := piece.1 ≤ i ∧ i < piece.2

def Contains (piece inner : Piece) : Prop := piece.1 ≤ inner.1 ∧ inner.2 ≤ piece.2

theorem Contains.refl (piece : Piece) : piece.Contains piece := ⟨Nat.le_refl _, Nat.le_refl _⟩

theorem Contains.trans {outer piece inner : Piece} (first : outer.Contains piece)
    (second : piece.Contains inner) : outer.Contains inner :=
  ⟨Nat.le_trans first.1 second.1, Nat.le_trans second.2 first.2⟩

theorem Contains.has {piece inner : Piece} {i : Nat} (contains : piece.Contains inner)
    (has : inner.Has i) : piece.Has i :=
  ⟨Nat.le_trans contains.1 has.1, Nat.lt_of_lt_of_le has.2 contains.2⟩

/-- Neither starts nor ends before the other. -/
def Before (piece other : Piece) : Prop := piece.1 ≤ other.1 ∧ piece.2 ≤ other.2

theorem Before.trans {first second third : Piece} (one : first.Before second)
    (two : second.Before third) : first.Before third :=
  ⟨Nat.le_trans one.1 two.1, Nat.le_trans one.2 two.2⟩

end Piece

/-- The pieces stand one after the other in a stretch, with all that matters in it. -/
structure Covers (matters : Nat → Prop) (lo hi : Nat) (pieces : List Piece) : Prop where
  within : ∀ piece ∈ pieces, lo ≤ piece.1 ∧ piece.1 < piece.2 ∧ piece.2 ≤ hi
  apart : pieces.Pairwise fun piece later => piece.2 ≤ later.1
  covered : ∀ i, lo ≤ i → i < hi → matters i → ∃ piece ∈ pieces, piece.Has i

namespace Covers

variable {matters : Nat → Prop} {lo mid hi : Nat} {pieces : List Piece}

theorem blank (free : ∀ i, lo ≤ i → i < hi → ¬matters i) : Covers matters lo hi [] where
  within := by simp
  apart := List.Pairwise.nil
  covered i starts ends isThere := absurd isThere (free i starts ends)

theorem whole (nonempty : lo < hi) : Covers matters lo hi [(lo, hi)] where
  within := by simp [nonempty]
  apart := pairwise_singleton _ _
  covered i starts ends _ := ⟨(lo, hi), mem_singleton_self _, starts, ends⟩

theorem append {others : List Piece} (first : Covers matters lo mid pieces)
    (second : Covers matters mid hi others) (rising : lo ≤ mid) (further : mid ≤ hi) :
    Covers matters lo hi (pieces ++ others) where
  within piece member := by
    rcases mem_append.mp member with inFirst | inSecond
    · have placed := first.within piece inFirst
      omega
    · have placed := second.within piece inSecond
      omega
  apart := by
    refine pairwise_append.mpr ⟨first.apart, second.apart, ?_⟩
    intro piece inFirst other inSecond
    exact Nat.le_trans (first.within piece inFirst).2.2 (second.within other inSecond).1
  covered i starts ends isThere := by
    by_cases inFirst : i < mid
    · obtain ⟨piece, member, has⟩ := first.covered i starts inFirst isThere
      exact ⟨piece, mem_append_left _ member, has⟩
    · obtain ⟨piece, member, has⟩ := second.covered i (Nat.le_of_not_lt inFirst) ends isThere
      exact ⟨piece, mem_append_right _ member, has⟩

theorem widen {first last : Nat} (covers : Covers matters lo hi pieces) (rising : first ≤ lo)
    (further : hi ≤ last) (before : ∀ i, first ≤ i → i < lo → ¬matters i)
    (after : ∀ i, hi ≤ i → i < last → ¬matters i) : Covers matters first last pieces where
  within piece member := by
    have placed := covers.within piece member
    omega
  apart := covers.apart
  covered i starts ends isThere := by
    refine covers.covered i ?_ ?_ isThere
    · by_contra early
      exact before i starts (Nat.lt_of_not_le early) isThere
    · by_contra late
      exact after i (Nat.le_of_not_lt late) ends isThere

theorem tail {piece : Piece} (covers : Covers matters lo hi (piece :: pieces)) :
    Covers matters piece.2 hi pieces where
  within other member := by
    have isAfter := (pairwise_cons.mp covers.apart).1 other member
    have placed := covers.within other (mem_cons_of_mem piece member)
    exact ⟨isAfter, placed.2⟩
  apart := (pairwise_cons.mp covers.apart).2
  covered i starts ends isThere := by
    have placed := covers.within piece mem_cons_self
    obtain ⟨other, member, has⟩ := covers.covered i (by omega) ends isThere
    rcases mem_cons.mp member with rfl | isLater
    · exact absurd has.2 (Nat.not_lt.mpr starts)
    · exact ⟨other, isLater, has⟩

theorem flatMap {cut : Piece → List Piece} (covers : Covers matters lo hi pieces)
    (cuts : ∀ piece ∈ pieces, Covers matters piece.1 piece.2 (cut piece)) :
    Covers matters lo hi (pieces.flatMap cut) where
  within part member := by
    obtain ⟨piece, isPiece, isPart⟩ := mem_flatMap.mp member
    have placed := covers.within piece isPiece
    have inPiece := (cuts piece isPiece).within part isPart
    omega
  apart := by
    refine pairwise_flatMap.mpr ⟨fun piece isPiece => (cuts piece isPiece).apart, ?_⟩
    refine covers.apart.imp_of_mem ?_
    intro piece later isPiece isLater isBefore part isPart other isOther
    have first := (cuts piece isPiece).within part isPart
    have second := (cuts later isLater).within other isOther
    omega
  covered i starts ends isThere := by
    obtain ⟨piece, isPiece, has⟩ := covers.covered i starts ends isThere
    obtain ⟨part, isPart, inPart⟩ := (cuts piece isPiece).covered i has.1 has.2 isThere
    exact ⟨part, mem_flatMap.mpr ⟨piece, isPiece, isPart⟩, inPart⟩

end Covers

end MemoryService.Foundation
