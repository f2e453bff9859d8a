import Mathlib.Algebra.Order.Ring.Rat

/-!
# Doubles

A double is kept as the rational number it stands for. `round` takes a rational to the nearest
one with a significand of 53 bits, a tie to the even one; sums are exact and then rounded.
-/

namespace MemoryService.Foundation.Binary64

/-- The nearest natural number to a quotient, the even one of two. -/
def divRound (n d : Nat) : Nat :=
  let quotient := n / d
  let twice := 2 * (n % d)
  if twice < d then quotient
  else if d < twice then quotient + 1
  else if quotient % 2 = 0 then quotient
  else quotient + 1

def shift (n d : Nat) : Int :=
  let places : Int := 53 + d.log2 - n.log2
  if d * 2 ^ (53 + (-places).toNat) ≤ n * 2 ^ places.toNat then places - 1 else places

def roundQuotient (n d : Nat) : Rat :=
  let places := shift n d
  if 0 ≤ places then mkRat (divRound (n * 2 ^ places.toNat) d) (2 ^ places.toNat)
  else ((divRound n (d * 2 ^ (-places).toNat) * 2 ^ (-places).toNat : Nat) : Rat)

def round (x : Rat) : Rat :=
  if x.num < 0 then -roundQuotient x.num.natAbs x.den
  else if x.num = 0 then 0
  else roundQuotient x.num.natAbs x.den

def add (x y : Rat) : Rat := round (x + y)

def sub (x y : Rat) : Rat := round (x - y)

example : round (1 / 10) = 3602879701896397 / 2 ^ 55 := by decide +kernel

example : sub (add (round (3 / 10)) (round (1 / 10))) (round (1 / 10)) ≠ round (3 / 10) := by
  decide +kernel

end MemoryService.Foundation.Binary64
