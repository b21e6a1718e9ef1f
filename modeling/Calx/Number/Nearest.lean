/-!
# Nearest double

The nonnegative doubles, in the order of their bit patterns, are the multiples of a unit that have
at most 53 significant bits; the unit is `2 ^ -1074`. `units` counts the units of a pattern, and
`nearestBits` goes back from a quotient to the pattern of the nearest double, a tie to the even
pattern. Main statement: `nearestBits_units`, a double that is hit exactly is found again.
-/

namespace Calx.Number

-- Powers are those of `Nat` itself, also next to a library that has its own.
attribute [local instance (high)] instPowNat

/-- The bit pattern of positive infinity. -/
def infinityBits : Nat := 0x7FF * 2 ^ (52 : Nat)

/-- A unit, the least positive double, is this power of one half. -/
def unitScale : Nat := 1074

/-- How many units one is. -/
def unitsPerOne : Nat := 2 ^ unitScale

theorem unitsPerOne_pos : 0 < unitsPerOne :=
  Nat.two_pow_pos unitScale

/-- How many units the finite double with the sign-free bit pattern `bits` is. -/
def units (bits : Nat) : Nat :=
  if bits / 2 ^ (52 : Nat) = 0 then bits
  else (2 ^ (52 : Nat) + bits % 2 ^ (52 : Nat)) * 2 ^ (bits / 2 ^ (52 : Nat) - 1)

/-- A quotient rounded to the nearest integer, a tie to the even one. -/
def roundQuotient (num den : Nat) : Nat :=
  let quotient := num / den
  let rest := num % den
  if 2 * rest < den then quotient
  else if den < 2 * rest then quotient + 1
  else quotient + quotient % 2

/-- The bit pattern of the double nearest to `num / den`. The quotient in units is shifted right
until 53 bits are left; the shift is the exponent field, and a carry out of the rounded bits steps
into it. -/
def nearestBits (num den : Nat) : Nat :=
  let scaled := num * unitsPerOne
  let shift := (scaled / den).log2 - 52
  min (shift * 2 ^ (52 : Nat) + roundQuotient scaled (den * 2 ^ shift)) infinityBits

/-- The double nearest to `num / den`. -/
def nearest (num den : Nat) : Float :=
  Float.ofBits (UInt64.ofNat (nearestBits num den))

/-- The bit pattern of a double without its sign. -/
def magnitudeBits (x : Float) : Nat :=
  x.toBits.toNat % 2 ^ (63 : Nat)

/-- The sign bit of a double: set for negative numbers, negative infinity and `-0.0`. -/
def isNegative (x : Float) : Bool :=
  2 ^ (63 : Nat) ≤ x.toBits.toNat

/-! ## Exact quotients -/

theorem roundQuotient_mul_right {num den : Nat} (h : 0 < den) :
    roundQuotient (num * den) den = num := by
  simp [roundQuotient, Nat.mul_div_cancel _ h, h]

theorem roundQuotient_mul_mul {a b c : Nat} (hb : 0 < b) (hc : 0 < c) :
    roundQuotient (a * c * b) (b * c) = a := by
  rw [Nat.mul_assoc, Nat.mul_comm c b]
  exact roundQuotient_mul_right (Nat.mul_pos hb hc)

/-- A finite double is the nearest one to its own value. -/
theorem nearestBits_units {bits : Nat} (h : bits < infinityBits) :
    nearestBits (units bits) unitsPerOne = bits := by
  have hcancel : units bits * unitsPerOne / unitsPerOne = units bits :=
    Nat.mul_div_cancel _ unitsPerOne_pos
  have hdiv : bits = 2 ^ 52 * (bits / 2 ^ 52) + bits % 2 ^ 52 := (Nat.div_add_mod _ _).symm
  have hmod : bits % 2 ^ 52 < 2 ^ 52 := Nat.mod_lt _ (by decide)
  simp only [nearestBits, hcancel]
  by_cases h0 : bits / 2 ^ 52 = 0
  · have hu : units bits = bits := if_pos h0
    have hlog : bits.log2 - 52 = 0 := by
      by_cases hb : bits = 0
      · subst hb; decide
      · have := (Nat.log2_lt hb).2 (show bits < 2 ^ 53 by omega)
        omega
    rw [hu, hlog]
    have := @roundQuotient_mul_mul bits unitsPerOne (2 ^ 0) unitsPerOne_pos (by decide)
    rw [show bits * 2 ^ 0 = bits by omega] at this
    rw [this]
    omega
  · obtain ⟨e, he⟩ : ∃ e, bits / 2 ^ 52 = e + 1 := ⟨_, (Nat.succ_pred h0).symm⟩
    have hu : units bits = (2 ^ 52 + bits % 2 ^ 52) * 2 ^ e := by
      rw [units, if_neg h0, he, Nat.add_sub_cancel]
    have hlog : (units bits).log2 - 52 = e := by
      have hne : units bits ≠ 0 := by
        rw [hu]; exact Nat.mul_ne_zero (by omega) (Nat.ne_of_gt (Nat.two_pow_pos _))
      have : (units bits).log2 = 52 + e := by
        rw [Nat.log2_eq_iff hne, hu, Nat.pow_add, show 52 + e + 1 = 53 + e by omega, Nat.pow_add]
        exact ⟨Nat.mul_le_mul_right _ (by omega),
          Nat.mul_lt_mul_of_pos_right (by omega) (Nat.two_pow_pos _)⟩
      omega
    rw [hlog, hu, roundQuotient_mul_mul unitsPerOne_pos (Nat.two_pow_pos _)]
    rw [he] at hdiv
    omega

end Calx.Number
