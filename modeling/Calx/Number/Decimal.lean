import Calx.Number.Nearest

/-!
# Decimal numbers

A decimal number is an integer times a power of ten. `Decimal.toFloat` rounds it to the nearest
double, whatever its size; exponents far outside the range of the doubles are answered without
computing the power.
-/

namespace Calx.Number

-- Powers are those of `Nat` itself, also next to a library that has its own.
attribute [local instance (high)] instPowNat

/-- The number `significand * 10 ^ exponent`. -/
structure Decimal where
  /-- The integer that is scaled. -/
  significand : Nat
  /-- The power of ten that scales it. -/
  exponent : Int
deriving DecidableEq

namespace Decimal

/-- Positive exponents from this one on overflow, whatever the significand. -/
def exponentBound : Nat := 2048

/-- The double nearest to a decimal number; infinity if it is too large for a double. -/
def toFloat (d : Decimal) : Float :=
  if d.significand = 0 then nearest 0 1
  else if exponentBound < d.exponent then Float.ofBits (UInt64.ofNat infinityBits)
  else if d.exponent < -((exponentBound + d.significand.log2 : Nat) : Int) then nearest 0 1
  else if 0 ≤ d.exponent then nearest (d.significand * 10 ^ d.exponent.toNat) 1
  else nearest d.significand (10 ^ (-d.exponent).toNat)

/-- The same number with the zeros at the end of its significand moved into the exponent. -/
def stripZeros (d : Decimal) : Decimal :=
  if h : d.significand ≠ 0 ∧ d.significand % 10 = 0 then
    stripZeros ⟨d.significand / 10, d.exponent + 1⟩
  else d
termination_by d.significand
decreasing_by exact Nat.div_lt_self (Nat.pos_of_ne_zero h.1) (by decide)

end Decimal

end Calx.Number
