import Calx.Number.Numeral
import Calx.Proofs.Number.Bits

/-!
# Rounding decimal numbers

`Decimal.toFloat` depends on the value of a decimal number alone: its answers for exponents far out
of range are those that computing the power would give (`toFloat_eq_nearest`), and zeros at the end
of the significand may move into the exponent (`toFloat_mul_pow`). The decimal number found for a
double rounds to that double (`toFloat_ofFloat`).
-/

namespace Calx.Number

/-! ## Quotients -/

theorem roundQuotient_scale {c : Nat} (hc : 0 < c) (num den : Nat) :
    roundQuotient (num * c) (den * c) = roundQuotient num den := by
  unfold roundQuotient
  have hassoc : 2 * (num % den * c) = 2 * (num % den) * c := (Nat.mul_assoc _ _ _).symm
  simp only [Nat.mul_div_mul_right _ _ hc, Nat.mul_mod_mul_right, hassoc, Nat.mul_lt_mul_right hc]

theorem div_le_roundQuotient (num den : Nat) : num / den ≤ roundQuotient num den := by
  simp only [roundQuotient]
  split
  · exact Nat.le_refl _
  · split <;> omega

theorem roundQuotient_eq_zero {num den : Nat} (h : 2 * num < den) : roundQuotient num den = 0 := by
  have hlt : num < den := by omega
  simp only [roundQuotient, Nat.mod_eq_of_lt hlt, if_pos h, Nat.div_eq_of_lt hlt]

/-- Rounding depends on the quotient alone. -/
theorem nearestBits_scale {c : Nat} (hc : 0 < c) (num den : Nat) :
    nearestBits (num * c) (den * c) = nearestBits num den := by
  have hnum : num * c * unitsPerOne = num * unitsPerOne * c := Nat.mul_right_comm _ _ _
  have hden (k : Nat) : den * c * 2 ^ k = den * 2 ^ k * c := Nat.mul_right_comm _ _ _
  simp only [nearestBits, hnum, hden, Nat.mul_div_mul_right _ _ hc, roundQuotient_scale hc]

theorem nearestBits_le (num den : Nat) : nearestBits num den ≤ infinityBits :=
  Nat.min_le_right _ _

/-- Quotients too large for a double are rounded to infinity. -/
theorem nearestBits_of_large {num k : Nat} (hk : 1024 ≤ k) (h : 2 ^ k ≤ num) :
    nearestBits num 1 = infinityBits := by
  have hunit : unitScale = 1074 := rfl
  have hscaled : 2 ^ (k + unitScale) ≤ num * unitsPerOne := by
    rw [Nat.pow_add, ← unitsPerOne]
    exact Nat.mul_le_mul_right _ h
  have hne : num * unitsPerOne ≠ 0 := Nat.ne_of_gt (Nat.lt_of_lt_of_le (Nat.two_pow_pos _) hscaled)
  have hlog : k + unitScale ≤ (num * unitsPerOne).log2 := (Nat.le_log2 hne).2 hscaled
  obtain ⟨shift, hshift⟩ : ∃ s, (num * unitsPerOne).log2 = s + 52 :=
    ⟨(num * unitsPerOne).log2 - 52, by omega⟩
  have hquot : 2 ^ 52 ≤ num * unitsPerOne / 2 ^ shift := by
    rw [Nat.le_div_iff_mul_le (Nat.two_pow_pos _), ← Nat.pow_add, Nat.add_comm, ← hshift]
    exact Nat.log2_self_le hne
  have hround := Nat.le_trans hquot (div_le_roundQuotient (num * unitsPerOne) (2 ^ shift))
  have hinf : infinityBits = 2047 * 2 ^ 52 := rfl
  simp only [nearestBits, Nat.div_one, Nat.one_mul, hshift, Nat.add_sub_cancel]
  refine Nat.min_eq_right ?_
  omega

/-- Quotients too small for a double are rounded to zero. -/
theorem nearestBits_of_small {num den : Nat} (h : num * 2 ^ (unitScale + 1) < den) :
    nearestBits num den = 0 := by
  have hpow : num * 2 ^ (unitScale + 1) = 2 * (num * unitsPerOne) := by
    rw [Nat.pow_succ, ← unitsPerOne, ← Nat.mul_assoc, Nat.mul_comm]
  have hround : 2 * (num * unitsPerOne) < den := by omega
  have hdiv : num * unitsPerOne / den = 0 := Nat.div_eq_of_lt (by omega)
  simp only [nearestBits, hdiv, Nat.log2_zero, Nat.zero_sub, Nat.pow_zero, Nat.mul_one,
    roundQuotient_eq_zero hround]
  rfl

theorem isMagnitude_nearest (num den : Nat) : IsMagnitude (nearest num den) :=
  ⟨nearestBits num den, nearestBits_le num den, rfl⟩

theorem nearest_scale {c : Nat} (hc : 0 < c) (num den : Nat) :
    nearest (num * c) (den * c) = nearest num den := by
  rw [nearest, nearestBits_scale hc, nearest]

theorem nearest_zero (den : Nat) (h : 0 < den) : nearest 0 den = nearest 0 1 := by
  rw [← nearest_scale h 0 1, Nat.zero_mul, Nat.one_mul]

theorem nearestBits_zero_one : nearestBits 0 1 = 0 :=
  nearestBits_of_small (by rw [Nat.zero_mul]; exact Nat.one_pos)

/-- A finite double is the nearest one to its units. -/
theorem nearest_units {bits : Nat} (h : bits < infinityBits) :
    nearest (units bits) unitsPerOne = Float.ofBits (UInt64.ofNat bits) := by
  rw [nearest, nearestBits_units h]

/-! ## Decimal numbers -/

namespace Decimal

variable {d : Decimal}

private theorem ten_pow_pos (n : Nat) : 0 < 10 ^ n := Nat.pow_pos (by decide)

private theorem ten_pow (n : Nat) : 10 ^ n = 2 ^ n * 5 ^ n := by
  rw [← Nat.mul_pow]

private theorem two_pow_le_ten_pow {m n : Nat} (h : m ≤ n) : 2 ^ m ≤ 10 ^ n :=
  Nat.le_trans (Nat.pow_le_pow_left (by decide) m) (Nat.pow_le_pow_right (by decide) h)

/-- The shortcuts of `toFloat` for exponents out of range change nothing. -/
theorem toFloat_eq_ite (d : Decimal) : d.toFloat =
    if 0 ≤ d.exponent then nearest (d.significand * 10 ^ d.exponent.toNat) 1
    else nearest d.significand (10 ^ (-d.exponent).toNat) := by
  unfold toFloat
  by_cases hs : d.significand = 0
  · rw [if_pos hs, hs, Nat.zero_mul, nearest_zero _ (ten_pow_pos _), ite_self]
  rw [if_neg hs]
  have hpos : 0 < d.significand := Nat.pos_of_ne_zero hs
  by_cases hlarge : (exponentBound : Int) < d.exponent
  · have hbound : (exponentBound : Int) = 2048 := rfl
    have hpow : 2 ^ d.exponent.toNat ≤ d.significand * 10 ^ d.exponent.toNat :=
      Nat.le_trans (two_pow_le_ten_pow (Nat.le_refl _)) (Nat.le_mul_of_pos_left _ hpos)
    rw [if_pos hlarge, if_pos (by omega), nearest, nearestBits_of_large (by omega) hpow]
  rw [if_neg hlarge]
  by_cases hsmall : d.exponent < -((exponentBound + d.significand.log2 : Nat) : Int)
  · have hbound : exponentBound = 2048 := rfl
    have hunit : unitScale = 1074 := rfl
    have hlog : d.significand < 2 ^ (d.significand.log2 + 1) := Nat.lt_log2_self
    have hpow : d.significand * 2 ^ (unitScale + 1) < 10 ^ (-d.exponent).toNat := by
      calc d.significand * 2 ^ (unitScale + 1)
          < 2 ^ (d.significand.log2 + 1) * 2 ^ (unitScale + 1) :=
            Nat.mul_lt_mul_of_pos_right hlog (Nat.two_pow_pos _)
        _ = 2 ^ (d.significand.log2 + 1 + (unitScale + 1)) := (Nat.pow_add _ _ _).symm
        _ ≤ 10 ^ (-d.exponent).toNat := two_pow_le_ten_pow (by omega)
    rw [if_pos hsmall, if_neg (by omega), nearest, nearest, nearestBits_of_small hpow,
      nearestBits_zero_one]
  · rw [if_neg hsmall]

/-- A decimal number is rounded as the quotient that it is. -/
theorem toFloat_eq_nearest {i j : Nat} (h : d.exponent = (i : Int) - j) :
    d.toFloat = nearest (d.significand * 10 ^ i) (10 ^ j) := by
  rw [toFloat_eq_ite]
  split
  · obtain ⟨k, hk⟩ : ∃ k, i = k + j := ⟨i - j, by omega⟩
    have he : d.exponent.toNat = k := by omega
    rw [he, hk, Nat.pow_add, ← Nat.mul_assoc, ← nearest_scale (ten_pow_pos j), Nat.one_mul]
  · obtain ⟨k, hk⟩ : ∃ k, j = k + i := ⟨j - i, by omega⟩
    have he : (-d.exponent).toNat = k := by omega
    rw [he, hk, Nat.pow_add, ← nearest_scale (ten_pow_pos i)]

/-- Zeros at the end of the significand may move into the exponent. -/
theorem toFloat_mul_pow (n k : Nat) (e : Int) :
    toFloat ⟨n * 10 ^ k, e⟩ = toFloat ⟨n, e + k⟩ := by
  obtain ⟨i, j, he⟩ : ∃ i j : Nat, e = (i : Int) - j := ⟨e.toNat, (-e).toNat, by omega⟩
  have he' : e + k = ((i + k : Nat) : Int) - j := by omega
  rw [toFloat_eq_nearest (d := ⟨n * 10 ^ k, e⟩) he, toFloat_eq_nearest (d := ⟨n, e + k⟩) he']
  simp only []
  rw [Nat.mul_assoc, ← Nat.pow_add, Nat.add_comm k i]

/-- Every power of ten from this one on is beyond the doubles. -/
theorem toFloat_of_large {n k : Nat} (hn : 0 < n) (hk : 342 ≤ k) :
    toFloat ⟨n, k⟩ = Float.ofBits (UInt64.ofNat infinityBits) := by
  have hlarge : 2 ^ (3 * k) ≤ n * 10 ^ k := by
    calc 2 ^ (3 * k) = (2 ^ 3) ^ k := Nat.pow_mul 2 3 k
      _ ≤ 10 ^ k := Nat.pow_le_pow_left (by decide) k
      _ ≤ n * 10 ^ k := Nat.le_mul_of_pos_left _ hn
  have hexp : (k : Int) = (k : Int) - (0 : Nat) := by omega
  refine (toFloat_eq_nearest (d := ⟨n, k⟩) hexp).trans ?_
  rw [Nat.pow_zero, nearest, nearestBits_of_large (by omega) hlarge]

theorem isMagnitude_toFloat (d : Decimal) : IsMagnitude d.toFloat := by
  rw [toFloat_eq_ite]
  split
  · exact isMagnitude_nearest _ _
  · exact isMagnitude_nearest _ _

theorem toFloat_zero {e : Int} : toFloat ⟨0, e⟩ = Float.ofBits (UInt64.ofNat 0) := by
  rw [toFloat, if_pos rfl, nearest, nearestBits_zero_one]

/-! ## The decimal number of a double -/

section OfFloat

variable {bits : Nat}

/-- The decimal number that equals a double rounds to it. -/
theorem toFloat_exact (h : bits < infinityBits) :
    (exact (Float.ofBits (UInt64.ofNat bits))).toFloat = Float.ofBits (UInt64.ofNat bits) := by
  have hexp : -(unitScale : Int) = ((0 : Nat) : Int) - unitScale := by omega
  have hpow : 10 ^ unitScale = unitsPerOne * 5 ^ unitScale := by rw [ten_pow, unitsPerOne]
  have hpos : 0 < 5 ^ unitScale := Nat.pow_pos (by decide)
  rw [exact, magnitudeBits_ofBits (Nat.le_of_lt h)]
  refine (toFloat_eq_nearest hexp).trans ?_
  rw [Nat.pow_zero, Nat.mul_one, hpow, nearest_scale hpos, nearest_units h]

theorem toFloat_of_findSome? {x : Float} {num den : Nat} {k : Int} {is : List Nat} {d : Decimal}
    (h : (is.findSome? fun (i : Nat) => candidate? x num den (k - (i : Int))) = some d) :
    d.toFloat = x := by
  obtain ⟨i, -, hi⟩ := List.exists_of_findSome?_eq_some h
  exact toFloat_of_mem_candidate? hi

/-- **The decimal number found for a double rounds to it.** -/
theorem toFloat_ofFloat (h : bits < infinityBits) :
    (ofFloat (Float.ofBits (UInt64.ofNat bits))).toFloat = Float.ofBits (UInt64.ofNat bits) := by
  have hexact := toFloat_exact h
  generalize Float.ofBits (UInt64.ofNat bits) = x at hexact ⊢
  unfold ofFloat
  simp only []
  generalize hfound : List.findSome? _ _ = found
  cases found with
  | none => exact hexact
  | some d => exact toFloat_of_findSome? hfound

theorem significand_ofFloat_ne_zero (h : bits < infinityBits) (hpos : bits ≠ 0) :
    (ofFloat (Float.ofBits (UInt64.ofNat bits))).significand ≠ 0 := by
  intro hzero
  have hfloat := toFloat_ofFloat h
  have hbits : magnitudeBits (Float.ofBits (UInt64.ofNat bits)) = bits :=
    magnitudeBits_ofBits (Nat.le_of_lt h)
  rw [← hfloat] at hbits
  generalize ofFloat (Float.ofBits (UInt64.ofNat bits)) = d at hzero hbits
  obtain ⟨n, e⟩ := d
  obtain rfl : n = 0 := hzero
  rw [toFloat_zero, magnitudeBits_ofBits (Nat.zero_le _)] at hbits
  exact hpos hbits.symm

end OfFloat

end Decimal

end Calx.Number
