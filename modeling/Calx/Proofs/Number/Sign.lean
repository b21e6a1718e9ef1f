import Calx.Proofs.Number.Bits

/-!
# The sign of a double

A double that is a number is a sign, an exponent field and a mantissa field (`exists_ofPattern`). To
take its magnitude or its opposite is to change the sign alone (`abs_ofPattern`, `neg_ofPattern`). So
the doubles without a sign are the numbers that are not negative (`isMagnitude_iff`), and a negative
double is the opposite of its magnitude (`neg_abs_of_isNegative`).
-/

namespace Calx.Number

open Float.Model (Format)
open Float.Model.UnpackedFloat

/-- The double with a sign, an exponent field and a mantissa field. -/
def ofPattern (s : Sign) (e : BitVec 11) (m : BitVec 52) : Float :=
  Float.ofBits ⟨pattern s e m⟩

section Pattern

variable {s : Sign} {e : BitVec 11} {m : BitVec 52}

theorem toBits_ofPattern (h : e = -1#11 → m = 0#52) :
    (ofPattern s e m).toBits = ⟨pattern s e m⟩ :=
  UInt64.toBitVec_inj.1 (pack_unpack_pattern h)

theorem unpack_ofPattern (h : e = -1#11 → m = 0#52) : (ofPattern s e m).toModel.unpack =
    Float.Model.UnpackedFloat.unpack Format.binary64 (pattern s e m) := by
  show Float.Model.UnpackedFloat.unpack Format.binary64 (ofPattern s e m).toBits.toBitVec = _
  rw [toBits_ofPattern h]

/-- What a pattern that is a number unpacks to. Only its sign comes from the sign field. -/
theorem unpack_pattern_cases (h : e = -1#11 → m = 0#52) :
    (∀ s, Float.Model.UnpackedFloat.unpack Format.binary64 (pattern s e m) = .infinity s) ∨
    (∀ s, Float.Model.UnpackedFloat.unpack Format.binary64 (pattern s e m) = .zero s) ∨
    ∃ n k hn, ∀ s, Float.Model.UnpackedFloat.unpack Format.binary64 (pattern s e m) =
      .finite s n k hn := by
  unfold Float.Model.UnpackedFloat.unpack
  simp only [unpackExponent_packComponents, unpackMantissa_packComponents, unpackSign_pattern,
    Sign.ofBitVec_toBitVec]
  by_cases hinf : e = -1#11
  · exact .inl fun s => by rw [if_pos hinf, if_pos (h hinf)]
  · simp only [if_neg hinf]
    by_cases hzero : e = 0#11
    · simp only [if_pos hzero]
      by_cases hm : m = 0#52
      · exact .inr (.inl fun s => dif_pos hm)
      · have hpos : 0 < m.toNat := Nat.pos_of_ne_zero fun h0 => hm (BitVec.eq_of_toNat_eq h0)
        exact .inr (.inr ⟨_, _, hpos, fun s => dif_neg hm⟩)
    · simp only [if_neg hzero]
      have hpos : 0 < (1#1 ++ m).toNat := by
        rw [toNat_leading]
        omega
      exact .inr (.inr ⟨_, _, hpos, fun s => rfl⟩)

theorem abs_ofPattern (h : e = -1#11 → m = 0#52) :
    (ofPattern s e m).abs = ofPattern .positive e m := by
  have habs : (Float.Model.UnpackedFloat.unpack Format.binary64 (pattern s e m)).abs =
      Float.Model.UnpackedFloat.unpack Format.binary64 (pattern .positive e m) := by
    rcases unpack_pattern_cases h with hu | hu | ⟨_, _, _, hu⟩ <;> rw [hu, hu] <;> rfl
  show Float.ofModel (.pack (ofPattern s e m).toModel.unpack.abs) = _
  rw [unpack_ofPattern h, habs]
  rfl

theorem neg_ofPattern (h : e = -1#11 → m = 0#52) :
    -ofPattern s e m = ofPattern (-s) e m := by
  have hneg : (Float.Model.UnpackedFloat.unpack Format.binary64 (pattern s e m)).neg =
      Float.Model.UnpackedFloat.unpack Format.binary64 (pattern (-s) e m) := by
    rcases unpack_pattern_cases h with hu | hu | ⟨_, _, _, hu⟩ <;> rw [hu, hu] <;> rfl
  show Float.ofModel (.pack (ofPattern s e m).toModel.unpack.neg) = _
  rw [unpack_ofPattern h, hneg]
  rfl

theorem isInf_ofPattern (h : e = -1#11 → m = 0#52) (s' : Sign) :
    (ofPattern s e m).isInf = (ofPattern s' e m).isInf := by
  show (ofPattern s e m).toModel.unpack.isInf = (ofPattern s' e m).toModel.unpack.isInf
  rw [unpack_ofPattern h, unpack_ofPattern h]
  rcases unpack_pattern_cases h with hu | hu | ⟨_, _, _, hu⟩ <;> rw [hu, hu] <;> rfl

theorem isNegative_ofPattern (h : e = -1#11 → m = 0#52) :
    isNegative (ofPattern s e m) = true ↔ s = .negative := by
  have he := e.isLt
  have hm := m.isLt
  have hbits : (ofPattern s e m).toBits.toNat = (pattern s e m).toNat := by
    rw [toBits_ofPattern h, UInt64.toNat]
  rw [isNegative, hbits, toNat_pattern, decide_eq_true_iff]
  cases s with
  | positive =>
    have hsign : (Sign.toBitVec .positive).toNat = 0 := rfl
    simp only [hsign, reduceCtorEq, iff_false]
    omega
  | negative =>
    have hsign : (Sign.toBitVec .negative).toNat = 1 := rfl
    simp only [hsign, iff_true]
    omega

theorem isMagnitude_ofPattern (h : e = -1#11 → m = 0#52) :
    IsMagnitude (ofPattern .positive e m) := by
  have he := e.isLt
  have hm := m.isLt
  have hinf : infinityBits = 2047 * 2 ^ 52 := rfl
  have hnum : e.toNat = 2047 → m.toNat = 0 := fun htop => by
    rw [h (BitVec.eq_of_toNat_eq htop)]
    rfl
  have hbits : (pattern .positive e m).toNat = e.toNat * 2 ^ 52 + m.toNat := by
    have hsign : (Sign.toBitVec .positive).toNat = 0 := rfl
    rw [toNat_pattern, hsign, Nat.zero_mul, Nat.zero_add]
  refine ⟨(pattern .positive e m).toNat, by omega, ?_⟩
  have hround : BitVec.ofNat 64 (pattern .positive e m).toNat = pattern .positive e m :=
    BitVec.ofNat_toNat _ _
  rw [ofPattern, UInt64.ofNat, hround]

end Pattern

/-- A double that is a number is made from a pattern that is one. -/
theorem exists_ofPattern {x : Float} (hx : x.isNaN = false) :
    ∃ s e m, (e = -1#11 → m = 0#52) ∧ x = ofPattern s e m := by
  let bits : BitVec Format.binary64.numBits := x.toBits.toBitVec
  have hfields : packComponents Format.binary64 (Sign.ofBitVec (unpackSign bits))
      (unpackExponent bits) (unpackMantissa bits) = bits :=
    packComponents_unpackSign_unpackExponent_unpackMantissa bits
  refine ⟨Sign.ofBitVec (unpackSign bits), unpackExponent bits, unpackMantissa bits,
    fun htop => ?_, ?_⟩
  · by_contra hm
    have hunpack : Float.Model.UnpackedFloat.unpack Format.binary64 bits = .notANumber := by
      unfold Float.Model.UnpackedFloat.unpack
      exact (if_pos htop).trans (if_neg hm)
    have hnan : x.isNaN = true := by
      show (Float.Model.UnpackedFloat.unpack Format.binary64 bits).isNaN = true
      rw [hunpack]
      rfl
    rw [hnan] at hx
    cases hx
  · rw [ofPattern, pattern, hfields]
    exact x.ofBits_toBits.symm

/-- A double has no sign if it is a number and not negative. -/
theorem isMagnitude_iff {x : Float} :
    IsMagnitude x ↔ x.isNaN = false ∧ isNegative x = false := by
  constructor
  · rintro ⟨bits, hbits, rfl⟩
    exact ⟨isNaN_ofBits hbits, isNegative_ofBits hbits⟩
  · rintro ⟨hnan, hneg⟩
    obtain ⟨s, e, m, hnum, rfl⟩ := exists_ofPattern hnan
    cases s with
    | positive => exact isMagnitude_ofPattern hnum
    | negative => rw [(isNegative_ofPattern hnum).2 rfl] at hneg; cases hneg

/-- The magnitude of a number has no sign, and is as infinite as the number. -/
theorem isMagnitude_abs {x : Float} (hx : x.isNaN = false) :
    IsMagnitude x.abs ∧ x.abs.isInf = x.isInf := by
  obtain ⟨s, e, m, hnum, rfl⟩ := exists_ofPattern hx
  rw [abs_ofPattern hnum]
  exact ⟨isMagnitude_ofPattern hnum, isInf_ofPattern hnum _⟩

/-- A negative number is the opposite of its magnitude. -/
theorem neg_abs_of_isNegative {x : Float} (hx : x.isNaN = false) (hneg : isNegative x = true) :
    -x.abs = x := by
  obtain ⟨s, e, m, hnum, rfl⟩ := exists_ofPattern hx
  obtain rfl := (isNegative_ofPattern hnum).1 hneg
  rw [abs_ofPattern hnum, neg_ofPattern hnum]
  rfl

end Calx.Number
