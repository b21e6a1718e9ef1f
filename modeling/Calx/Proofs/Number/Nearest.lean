import Calx.Proofs.Number.Rounding

/-!
# The nearest double

`IsNearest q x` says that `x` is what the number `q` is rounded to: no double without a sign is nearer
to `q`, and of two that are equally near it is the one with the even bit pattern. There is only one
such double (`IsNearest.unique`). The double read for a decimal number is the nearest one
(`Decimal.isNearest_toFloat`).

The proof follows the patterns. The doubles from one power of two to the next are the multiples of a
shifted unit (`units_shift`), among which rounding a quotient finds the closest; what lies outside of
them is further away (`closest_nearestBits`).
-/

namespace Calx.Number

open Float.Model (Format)
open Float.Model.UnpackedFloat

/-! ## Units -/

/-- The patterns with 52 bits and one more behind a shift are multiples of a shifted unit. -/
theorem units_shift {shift m : Nat} (hle : m ≤ 2 ^ 53) (h : shift = 0 ∨ 2 ^ 52 ≤ m) :
    units (shift * 2 ^ 52 + m) = m * 2 ^ shift := by
  rcases Nat.lt_or_ge m (2 ^ 52) with hlt | hge
  · obtain rfl : shift = 0 := h.resolve_right (Nat.not_le.2 hlt)
    have hfield : (0 * 2 ^ 52 + m) / 2 ^ 52 = 0 := by omega
    rw [units, if_pos hfield, Nat.zero_mul, Nat.zero_add, Nat.pow_zero, Nat.mul_one]
  rcases Nat.lt_or_eq_of_le hle with hlt | rfl
  · have hfield : (shift * 2 ^ 52 + m) / 2 ^ 52 = shift + 1 := by omega
    have hmantissa : 2 ^ 52 + (shift * 2 ^ 52 + m) % 2 ^ 52 = m := by omega
    rw [units, hfield, hmantissa, if_neg (Nat.succ_ne_zero shift), Nat.add_sub_cancel]
  · -- The next power of two: the first pattern behind the next shift.
    have hfield : (shift * 2 ^ 52 + 2 ^ 53) / 2 ^ 52 = shift + 1 + 1 := by omega
    have hmantissa : 2 ^ 52 + (shift * 2 ^ 52 + 2 ^ 53) % 2 ^ 52 = 2 ^ 52 := by omega
    have hpow : 52 + (shift + 1) = 53 + shift := by omega
    rw [units, hfield, hmantissa, if_neg (Nat.succ_ne_zero _), Nat.add_sub_cancel, ← Nat.pow_add,
      ← Nat.pow_add, hpow]

theorem exists_shift (bits : Nat) :
    ∃ shift m, bits = shift * 2 ^ 52 + m ∧ m < 2 ^ 53 ∧ (shift = 0 ∨ 2 ^ 52 ≤ m) := by
  by_cases h : bits < 2 ^ 52
  · exact ⟨0, bits, by omega, by omega, .inl rfl⟩
  · exact ⟨bits / 2 ^ 52 - 1, 2 ^ 52 + bits % 2 ^ 52, by omega, by omega, .inr (by omega)⟩

theorem units_strictMono : StrictMono units := by
  refine strictMono_nat_of_lt_succ fun bits => ?_
  obtain ⟨shift, m, rfl, hlt, h⟩ := exists_shift bits
  rw [Nat.add_assoc, units_shift (Nat.le_of_lt hlt) h, units_shift hlt (h.imp_right (by omega))]
  exact Nat.mul_lt_mul_of_pos_right (Nat.lt_succ_self m) (Nat.two_pow_pos shift)

/-! ## Closest numbers -/

/-- How far two numbers are apart. -/
def gap (a b : Nat) : Nat :=
  (a - b) + (b - a)

/-- Of the numbers `f k` none is closer to `target` than `f n`, and if one is as close `n` is even. -/
def Closest (f : Nat → Nat) (target n : Nat) : Prop :=
  ∀ k ≠ n, gap (f n) target < gap (f k) target ∨ gap (f n) target = gap (f k) target ∧ n % 2 = 0

theorem Closest.le {f : Nat → Nat} {target n : Nat} (h : Closest f target n) (k : Nat) :
    gap (f n) target ≤ gap (f k) target := by
  by_cases hk : k = n
  · rw [hk]
  · rcases h k hk with hlt | ⟨heq, -⟩
    · exact Nat.le_of_lt hlt
    · exact Nat.le_of_eq heq

theorem roundQuotient_cases (num den : Nat) :
    (2 * (num % den) < den ∧ roundQuotient num den = num / den) ∨
    (den < 2 * (num % den) ∧ roundQuotient num den = num / den + 1) ∨
    (2 * (num % den) = den ∧ roundQuotient num den = num / den + num / den % 2) := by
  unfold roundQuotient
  dsimp only
  split
  · exact .inl ⟨‹_›, rfl⟩
  · split
    · exact .inr (.inl ⟨‹_›, rfl⟩)
    · exact .inr (.inr ⟨by omega, rfl⟩)

/-- Rounding a quotient finds the closest multiple. -/
theorem closest_roundQuotient {den : Nat} (hden : 0 < den) (num : Nat) :
    Closest (· * den) num (roundQuotient num den) := by
  intro k hk
  have hdiv := Nat.div_add_mod' num den
  have hmod := Nat.mod_lt num hden
  have hround := roundQuotient_cases num den
  generalize roundQuotient num den = m at hk hround ⊢
  generalize num / den = q at hdiv hround
  generalize num % den = r at hdiv hmod hround
  have hsucc : (q + 1) * den = q * den + den := Nat.succ_mul q den
  have hbelow : k < q → k * den + den ≤ q * den := by
    intro h
    rw [← Nat.succ_mul]
    exact Nat.mul_le_mul_right den h
  have habove : q + 1 < k → (q + 1) * den + den ≤ k * den := by
    intro h
    rw [← Nat.succ_mul]
    exact Nat.mul_le_mul_right den h
  have hcases : k < q ∨ k = q ∨ k = q + 1 ∨ q + 1 < k := by omega
  have hm : m = q ∨ m = q + 1 := by omega
  dsimp only [gap]
  rcases hm with rfl | rfl <;> rcases hcases with h | rfl | rfl | h <;> omega

/-! ## Closest patterns -/

/-- A quotient lies among the multiples of the unit that is shifted so that 53 bits of it are left. -/
theorem quotient_bounds {num den shift : Nat} (hden : 0 < den)
    (hshift : (num / den).log2 - 52 = shift) :
    num < 2 ^ 53 * (den * 2 ^ shift) ∧ (shift = 0 ∨ 2 ^ 52 * (den * 2 ^ shift) ≤ num) := by
  have hmul (k : Nat) : 2 ^ k * (den * 2 ^ shift) = 2 ^ (k + shift) * den := by
    rw [Nat.pow_add, Nat.mul_left_comm, Nat.mul_comm den]
  constructor
  · rw [hmul, ← Nat.div_lt_iff_lt_mul hden]
    exact Nat.lt_of_lt_of_le Nat.lt_log2_self (Nat.pow_le_pow_right (by decide) (by omega))
  · by_cases hzero : shift = 0
    · exact .inl hzero
    · have hlog : (num / den).log2 = 52 + shift := by omega
      have hne : num / den ≠ 0 := by
        intro h
        rw [h, Nat.log2_zero] at hlog
        omega
      rw [hmul, ← Nat.le_div_iff_mul_le hden, ← hlog]
      exact .inr (Nat.log2_self_le hne)

/-- **The pattern of the rounded quotient is the closest one**, if patterns go on behind infinity. -/
theorem closest_pattern {num den shift : Nat} (hden : 0 < den)
    (hshift : (num / den).log2 - 52 = shift) :
    Closest (units · * den) num (shift * 2 ^ 52 + roundQuotient num (den * 2 ^ shift)) := by
  obtain ⟨hhigh, hlow⟩ := quotient_bounds hden hshift
  have hunit (m : Nat) : m * 2 ^ shift * den = m * (den * 2 ^ shift) := by
    rw [Nat.mul_assoc, Nat.mul_comm (2 ^ shift)]
  have hpos : 0 < den * 2 ^ shift := Nat.mul_pos hden (Nat.two_pow_pos shift)
  have hclosest := closest_roundQuotient hpos num
  have hquotient := roundQuotient_cases num (den * 2 ^ shift)
  have hdiv : num / (den * 2 ^ shift) < 2 ^ 53 := (Nat.div_lt_iff_lt_mul hpos).2 hhigh
  have hdiv' : shift = 0 ∨ 2 ^ 52 ≤ num / (den * 2 ^ shift) :=
    hlow.imp_right (Nat.le_div_iff_mul_le hpos).2
  generalize num / (den * 2 ^ shift) = q at hquotient hdiv hdiv'
  generalize roundQuotient num (den * 2 ^ shift) = m at hclosest hquotient ⊢
  have hm : m ≤ 2 ^ 53 ∧ (shift = 0 ∨ 2 ^ 52 ≤ m) := by omega
  intro k hk
  dsimp only
  rw [units_shift hm.1 hm.2, hunit]
  have hbelow := hclosest.le (2 ^ 52)
  have habove := hclosest.le (2 ^ 53)
  by_cases hk₁ : shift ≠ 0 ∧ k < shift * 2 ^ 52 + 2 ^ 52
  · -- The quotient is no less than the first of the multiples, which is closer.
    have hlt := units_strictMono hk₁.2
    rw [units_shift (by decide) (.inr (Nat.le_refl _))] at hlt
    have hlt' := Nat.mul_lt_mul_of_pos_right hlt hden
    rw [hunit] at hlt'
    have hle := hlow.resolve_left hk₁.1
    dsimp only [gap] at hbelow ⊢
    omega
  by_cases hk₂ : shift * 2 ^ 52 + 2 ^ 53 < k
  · -- It is less than the last of them, which is closer.
    have hlt := units_strictMono hk₂
    rw [units_shift (Nat.le_refl _) (.inr (by decide))] at hlt
    have hlt' := Nat.mul_lt_mul_of_pos_right hlt hden
    rw [hunit] at hlt'
    dsimp only [gap] at habove ⊢
    omega
  · obtain ⟨n, rfl⟩ : ∃ n, k = shift * 2 ^ 52 + n := ⟨k - shift * 2 ^ 52, by omega⟩
    rw [units_shift (by omega) (by omega), hunit]
    have hn : n ≠ m := fun h => hk (by rw [h])
    exact (hclosest n hn).imp_right fun ⟨heq, heven⟩ => ⟨heq, by omega⟩

/-- Of the patterns up to a bound, the closest one is found by stopping there. -/
theorem Closest.min {den num bits bound : Nat} (h : Closest (units · * den) num bits)
    (hden : 0 < den) {k : Nat} (hk : k ≤ bound) (hne : k ≠ min bits bound) :
    gap (units (min bits bound) * den) num < gap (units k * den) num ∨
      gap (units (min bits bound) * den) num = gap (units k * den) num ∧ min bits bound % 2 = 0 := by
  rcases Nat.lt_or_ge bound bits with hlt | hle
  · rw [Nat.min_eq_right (Nat.le_of_lt hlt)] at hne ⊢
    -- The bound is no further away than the closest pattern behind it, so `num` is behind the bound.
    have hbound := Nat.mul_lt_mul_of_pos_right (units_strictMono hlt) hden
    have hbefore := Nat.mul_lt_mul_of_pos_right
      (units_strictMono (Nat.lt_of_le_of_ne hk hne)) hden
    have hclosest := h.le bound
    dsimp only [gap] at hclosest ⊢
    omega
  · rw [Nat.min_eq_left hle] at hne ⊢
    exact h k hne

/-- **The pattern that a quotient is rounded to is the closest one.** -/
theorem closest_nearestBits {num den : Nat} (hden : 0 < den) {k : Nat} (hk : k ≤ infinityBits)
    (hne : k ≠ nearestBits num den) :
    gap (units (nearestBits num den) * den) (num * unitsPerOne) <
        gap (units k * den) (num * unitsPerOne) ∨
      gap (units (nearestBits num den) * den) (num * unitsPerOne) =
        gap (units k * den) (num * unitsPerOne) ∧ nearestBits num den % 2 = 0 :=
  (closest_pattern hden rfl).min hden hk hne

/-! ## Sizes -/

/-- The size of a double, its sign left out. Infinity counts as the power of two that would come
next, as it does for rounding. -/
def magnitude (x : Float) : ℚ :=
  match x.toModel.unpack with
  | .infinity _ => 2 ^ 1024
  | .notANumber => 0
  | .zero _ => 0
  | .finite _ m e _ => m * 2 ^ e

theorem units_div_unitsPerOne {shift m : Nat} (hle : m ≤ 2 ^ 53) (h : shift = 0 ∨ 2 ^ 52 ≤ m) :
    (units (shift * 2 ^ 52 + m) : ℚ) / unitsPerOne = m * 2 ^ ((shift : Int) - unitScale) := by
  have htwo : (2 : ℚ) ≠ 0 := by norm_num
  rw [units_shift hle h, unitsPerOne, zpow_sub₀ htwo, zpow_natCast, zpow_natCast, mul_div_assoc']
  push_cast
  rfl

/-- The size of the double that a bit pattern makes. -/
theorem magnitude_ofBits {bits : Nat} (h : bits ≤ infinityBits) :
    magnitude (Float.ofBits (UInt64.ofNat bits)) = units bits / unitsPerOne := by
  have hinf : infinityBits = 2047 * 2 ^ 52 := rfl
  have hunit : unitScale = 1074 := rfl
  have hsign : Sign.ofBitVec (Sign.toBitVec .positive) = .positive := rfl
  obtain ⟨e, m, hpat, hnum, hiff⟩ := exists_pattern h
  have hbits : bits = e.toNat * 2 ^ 52 + m.toNat := by
    have hnat := congrArg BitVec.toNat hpat
    have hpos : (Sign.toBitVec .positive).toNat = 0 := rfl
    rw [toNat_pattern, hpos, UInt64.toNat_toBitVec, UInt64.toNat_ofNat'] at hnat
    omega
  have hm := m.isLt
  rw [magnitude, unpack_ofBits h, hpat]
  unfold Float.Model.UnpackedFloat.unpack
  simp only [unpackExponent_packComponents, unpackMantissa_packComponents, unpackSign_pattern,
    hsign]
  by_cases htop : e = -1#11
  · have hbits' : bits = 2046 * 2 ^ 52 + 2 ^ 52 := by
      rw [hiff.1 htop]
      rfl
    rw [if_pos htop, if_pos (hnum htop), hbits', units_div_unitsPerOne (by decide) (by decide)]
    have hexp : ((2046 : Nat) : Int) - unitScale = (972 : Nat) := rfl
    have hpow : ((2 ^ 52 : Nat) : ℚ) = 2 ^ 52 := by push_cast; rfl
    dsimp only
    rw [hexp, hpow, zpow_natCast, ← pow_add]
  rw [if_neg htop]
  by_cases hzero : e = 0#11
  · subst hzero
    rw [if_pos rfl]
    by_cases hm0 : m = 0#52
    · subst hm0
      have hbits' : bits = 0 * 2 ^ 52 + 0 := hbits
      rw [dif_pos rfl, hbits', units_div_unitsPerOne (Nat.zero_le _) (.inl rfl), Nat.cast_zero,
        zero_mul]
    · have hbits' : bits = 0 * 2 ^ 52 + m.toNat := hbits
      rw [dif_neg hm0, hbits', units_div_unitsPerOne (by omega) (.inl rfl)]
      rfl
  · have he : e.toNat ≠ 0 := fun h0 => hzero (BitVec.eq_of_toNat_eq h0)
    obtain ⟨k, hk⟩ := Nat.exists_eq_succ_of_ne_zero he
    have hbits' : bits = k * 2 ^ 52 + (2 ^ 52 + m.toNat) := by
      rw [hbits, hk, Nat.succ_mul, Nat.add_assoc]
    have hexp : (k : Int) - unitScale = ((k + 1 : Nat) : Int) - ((1023 : Nat) + (52 : Nat)) := by
      rw [hunit]
      push_cast
      ring
    rw [if_neg hzero, hbits', units_div_unitsPerOne (by omega) (.inr (by omega)), hexp]
    dsimp only
    rw [toNat_leading, hk]
    rfl

/-! ## Rounding -/

/-- The double `x` is the one that `q` is rounded to: no other one without a sign is nearer, and if
another one is as near, the bit pattern of `x` is even. -/
def IsNearest (q : ℚ) (x : Float) : Prop :=
  IsMagnitude x ∧ ∀ y, IsMagnitude y → y ≠ x → |magnitude x - q| < |magnitude y - q| ∨
    |magnitude x - q| = |magnitude y - q| ∧ x.toBits.toNat % 2 = 0

theorem gap_cast (a b : Nat) : (gap a b : ℚ) = |(a : ℚ) - b| := by
  rcases Nat.le_total a b with h | h
  · have hcast : (a : ℚ) ≤ b := Nat.cast_le.2 h
    rw [gap, Nat.sub_eq_zero_of_le h, Nat.zero_add, Nat.cast_sub h, abs_sub_comm,
      abs_of_nonneg (sub_nonneg.2 hcast)]
  · have hcast : (b : ℚ) ≤ a := Nat.cast_le.2 h
    rw [gap, Nat.sub_eq_zero_of_le h, Nat.add_zero, Nat.cast_sub h,
      abs_of_nonneg (sub_nonneg.2 hcast)]

theorem abs_magnitude_sub {den bits : Nat} (hden : 0 < den) (hbits : bits ≤ infinityBits)
    (num : Nat) : |magnitude (Float.ofBits (UInt64.ofNat bits)) - num / den| =
      gap (units bits * den) (num * unitsPerOne) / ((unitsPerOne : ℚ) * den) := by
  have hden' : (0 : ℚ) < den := Nat.cast_pos.2 hden
  have hunits : (0 : ℚ) < unitsPerOne := Nat.cast_pos.2 unitsPerOne_pos
  rw [magnitude_ofBits hbits, div_sub_div _ _ hunits.ne' hden'.ne', abs_div,
    abs_of_pos (mul_pos hunits hden'), gap_cast, Nat.cast_mul, Nat.cast_mul,
    mul_comm (unitsPerOne : ℚ)]

theorem isNearest_nearest (num : Nat) {den : Nat} (hden : 0 < den) :
    IsNearest (num / den) (nearest num den) := by
  have hscale : (0 : ℚ) < (unitsPerOne : ℚ) * den :=
    mul_pos (Nat.cast_pos.2 unitsPerOne_pos) (Nat.cast_pos.2 hden)
  have hle := nearestBits_le num den
  refine ⟨isMagnitude_nearest num den, ?_⟩
  rintro _ ⟨bits, hbits, rfl⟩ hne
  rw [nearest, abs_magnitude_sub hden hle, abs_magnitude_sub hden hbits,
    div_lt_div_iff_of_pos_right hscale, div_left_inj' hscale.ne', Nat.cast_lt, Nat.cast_inj,
    toNat_toBits_ofBits hle]
  exact closest_nearestBits hden hbits fun h => hne (by rw [h, nearest])

/-- Doubles without a sign are ordered as their bit patterns. -/
theorem magnitude_lt {a b : Nat} (h : a < b) (hb : b ≤ infinityBits) :
    magnitude (Float.ofBits (UInt64.ofNat a)) < magnitude (Float.ofBits (UInt64.ofNat b)) := by
  rw [magnitude_ofBits (Nat.le_trans (Nat.le_of_lt h) hb), magnitude_ofBits hb]
  exact div_lt_div_of_pos_right (Nat.cast_lt.2 (units_strictMono h))
    (Nat.cast_pos.2 unitsPerOne_pos)

/-- A number is rounded to one double only. -/
theorem IsNearest.unique {q : ℚ} {x y : Float} (hx : IsNearest q x) (hy : IsNearest q y) :
    x = y := by
  obtain ⟨⟨a, ha, rfl⟩, hnearest⟩ := hx
  obtain ⟨⟨b, hb, rfl⟩, hnearest'⟩ := hy
  by_contra hne
  wlog hlt : a < b generalizing a b
  · exact this b hb hnearest' a ha hnearest (Ne.symm hne)
      (Nat.lt_of_le_of_ne (Nat.not_lt.1 hlt) fun h => hne (by rw [h]))
  -- Both are even and `q` lies halfway between them, so the double behind the first is nearer.
  obtain ⟨heq, ha2, hb2⟩ : |magnitude (Float.ofBits (UInt64.ofNat a)) - q| =
      |magnitude (Float.ofBits (UInt64.ofNat b)) - q| ∧ a % 2 = 0 ∧ b % 2 = 0 := by
    rw [toNat_toBits_ofBits ha] at hnearest
    rw [toNat_toBits_ofBits hb] at hnearest'
    rcases hnearest _ ⟨b, hb, rfl⟩ (Ne.symm hne) with h | ⟨h, ha2⟩
    · rcases hnearest' _ ⟨a, ha, rfl⟩ hne with h' | ⟨h', -⟩
      · exact absurd h (not_lt.2 h'.le)
      · exact absurd h (not_lt.2 h'.le)
    · rcases hnearest' _ ⟨a, ha, rfl⟩ hne with h' | ⟨-, hb2⟩
      · exact absurd h' (not_lt.2 h.le)
      · exact ⟨h, ha2, hb2⟩
  have hnext := magnitude_lt (Nat.lt_succ_self a) (by omega)
  have hlast := magnitude_lt (a := a + 1) (b := b) (by omega) hb
  have hcloser : |magnitude (Float.ofBits (UInt64.ofNat (a + 1))) - q| <
      |magnitude (Float.ofBits (UInt64.ofNat a)) - q| := by
    rcases abs_eq_abs.1 heq with h | h
    · exact absurd (sub_left_injective h) (hnext.trans hlast).ne
    · have hq : magnitude (Float.ofBits (UInt64.ofNat a)) < q := by linarith
      rw [abs_lt, abs_of_neg (sub_neg.2 hq)]
      constructor <;> linarith
  rcases hnearest _ ⟨a + 1, by omega, rfl⟩ (fun h => hnext.ne' (by rw [h])) with h | ⟨h, -⟩
  · exact lt_asymm h hcloser
  · exact hcloser.ne' h

/-! ## Decimal numbers -/

/-- The number that a decimal number is. -/
def Decimal.value (d : Decimal) : ℚ :=
  d.significand * 10 ^ d.exponent

/-- **The double read for a decimal number is the nearest one.** -/
theorem Decimal.isNearest_toFloat (d : Decimal) : IsNearest d.value d.toFloat := by
  obtain ⟨i, j, he⟩ : ∃ i j : Nat, d.exponent = (i : Int) - j :=
    ⟨d.exponent.toNat, (-d.exponent).toNat, by omega⟩
  have hten : (10 : ℚ) ≠ 0 := by norm_num
  have hvalue : d.value = ((d.significand * 10 ^ i : Nat) : ℚ) / ((10 ^ j : Nat) : ℚ) := by
    rw [value, he, zpow_sub₀ hten, zpow_natCast, zpow_natCast, mul_div_assoc']
    push_cast
    rfl
  rw [hvalue, toFloat_eq_nearest he]
  exact isNearest_nearest _ (Nat.pow_pos (by decide))

end Calx.Number
