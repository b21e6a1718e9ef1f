import Calx.Number.Nearest
import Mathlib

/-!
# Doubles and their bit patterns

A double is its bit pattern, but for the patterns that are not a number. `IsMagnitude` tells the
doubles that a numeral can denote: those without a sign, infinity included. Each is made from one
pattern, and the tests on doubles read that pattern.
-/

namespace Calx.Number

open Float.Model (Format)
open Float.Model.UnpackedFloat

/-! ## Packing -/

section Packing

variable {s : Sign} {e : BitVec 11} {m : BitVec 52}

/-- The bit pattern with a sign, an exponent field and a mantissa field. -/
abbrev pattern (s : Sign) (e : BitVec 11) (m : BitVec 52) : BitVec Format.binary64.numBits :=
  packComponents Format.binary64 s e m

theorem unpackSign_pattern : unpackSign (pattern s e m) = s.toBitVec := by
  ext i hi
  obtain rfl : i = 0 := by omega
  have hget : (unpackSign (pattern s e m))[0] = (s.toBitVec ++ e ++ m).getLsbD 63 := by
    simp only [unpackSign, BitVec.getElem_cast, BitVec.extractLsb, BitVec.getElem_extractLsb']
    rfl
  rw [hget, BitVec.getLsbD_append, if_neg (by decide), BitVec.getLsbD_append, if_neg (by decide)]
  exact BitVec.getLsbD_eq_getElem _

theorem toNat_pattern :
    (pattern s e m).toNat = s.toBitVec.toNat * 2 ^ 63 + e.toNat * 2 ^ 52 + m.toNat := by
  simp only [packComponents, BitVec.toNat_append]
  rw [← Nat.shiftLeft_add_eq_or_of_lt m.isLt, ← Nat.shiftLeft_add_eq_or_of_lt e.isLt]
  simp only [Nat.shiftLeft_eq]
  omega

/-- A mantissa with its leading bit. -/
theorem toNat_leading (m : BitVec 52) : (1#1 ++ m).toNat = 2 ^ 52 + m.toNat := by
  rw [BitVec.toNat_append, ← Nat.shiftLeft_add_eq_or_of_lt m.isLt, Nat.shiftLeft_eq]
  rfl

theorem log2_leading (m : BitVec 52) : (1#1 ++ m).toNat.log2 = 52 := by
  have hm := m.isLt
  rw [toNat_leading, Nat.log2_eq_iff (by omega)]
  omega

/-- A pattern that is a number is what its double is stored as. -/
theorem pack_unpack_pattern (h : e = -1#11 → m = 0#52) :
    pack Format.binary64 (Float.Model.UnpackedFloat.unpack Format.binary64 (pattern s e m)) =
      pattern s e m := by
  have hs : Sign.ofBitVec s.toBitVec = s := by cases s <;> rfl
  unfold Float.Model.UnpackedFloat.unpack
  simp only [unpackExponent_packComponents, unpackMantissa_packComponents, unpackSign_pattern, hs]
  by_cases hinf : e = -1#11
  · subst hinf
    rw [if_pos rfl, if_pos (h rfl), h rfl]
    rfl
  rw [if_neg hinf]
  by_cases hzero : e = 0#11
  · subst hzero
    rw [if_pos rfl]
    by_cases hm : m = 0#52
    · subst hm
      rfl
    · rw [dif_neg hm]
      have hpos : m.toNat ≠ 0 := fun h0 => hm (BitVec.eq_of_toNat_eq h0)
      have hlog : m.toNat.log2 < 52 := (Nat.log2_lt hpos).2 m.isLt
      have hsub : ¬m.toNat.log2 + 1 = Format.binary64.mantissaBits := by
        simp only [Format.mantissaBits]
        omega
      simp only [pack, if_neg hsub, BitVec.ofNat_toNat, BitVec.setWidth_eq]
      rfl
  · rw [if_neg hzero]
    have hnormal : (1#1 ++ m).toNat.log2 + 1 = Format.binary64.mantissaBits := by
      rw [log2_leading]
      rfl
    have hmax : e.toNat ≠ 2047 := fun h0 => hinf (BitVec.eq_of_toNat_eq h0)
    have hlt : ¬2 ^ 11 ≤ e.toNat + 1 := by have := e.isLt; omega
    have hexp (b : Int) : (e.toNat - (b + (52 : Nat)) + b + (52 : Nat)).toNat = e.toNat := by omega
    have hmant : BitVec.ofNat 52 (1#1 ++ m).toNat = m := by
      rw [BitVec.ofNat_toNat, BitVec.setWidth_append]
      simp
    simp only [pack, hexp, if_pos hnormal, if_neg hlt, BitVec.ofNat_toNat, BitVec.setWidth_eq]
    rw [← BitVec.ofNat_toNat, hmant]

end Packing

/-! ## Doubles without a sign -/

/-- The doubles without a sign: each is made from a bit pattern up to that of infinity. -/
def IsMagnitude (x : Float) : Prop :=
  ∃ bits ≤ infinityBits, x = Float.ofBits (UInt64.ofNat bits)

section Magnitude

variable {bits : Nat}

theorem exists_pattern (h : bits ≤ infinityBits) :
    ∃ e m, (UInt64.ofNat bits).toBitVec = pattern .positive e m ∧ (e = -1#11 → m = 0#52) ∧
      (e = -1#11 ↔ bits = infinityBits) := by
  have hinf : infinityBits = 2047 * 2 ^ 52 := rfl
  have he : (BitVec.ofNat 11 (bits / 2 ^ 52)).toNat = bits / 2 ^ 52 := by
    rw [BitVec.toNat_ofNat]
    exact Nat.mod_eq_of_lt (by omega)
  have hm : (BitVec.ofNat 52 (bits % 2 ^ 52)).toNat = bits % 2 ^ 52 := by
    rw [BitVec.toNat_ofNat]
    exact Nat.mod_eq_of_lt (by omega)
  have hiff : BitVec.ofNat 11 (bits / 2 ^ 52) = -1#11 ↔ bits / 2 ^ 52 = 2047 := by
    rw [← BitVec.toNat_inj, he]
    rfl
  refine ⟨BitVec.ofNat 11 (bits / 2 ^ 52), BitVec.ofNat 52 (bits % 2 ^ 52), ?_, ?_, ?_⟩
  · apply BitVec.eq_of_toNat_eq
    have hsign : (Sign.toBitVec .positive).toNat = 0 := rfl
    rw [toNat_pattern, he, hm, hsign, UInt64.toNat_toBitVec, UInt64.toNat_ofNat']
    omega
  · rw [hiff]
    intro htop
    apply BitVec.eq_of_toNat_eq
    rw [hm]
    show bits % 2 ^ 52 = 0
    omega
  · rw [hiff]
    omega

/-- The double made from a pattern is stored as that pattern. -/
theorem toBits_ofBits (h : bits ≤ infinityBits) :
    (Float.ofBits (UInt64.ofNat bits)).toBits = UInt64.ofNat bits := by
  obtain ⟨e, m, hpat, hnum, -⟩ := exists_pattern h
  apply UInt64.toBitVec_inj.1
  show pack Format.binary64 (Float.Model.UnpackedFloat.unpack Format.binary64
    (UInt64.ofNat bits).toBitVec) = _
  rw [hpat]
  exact pack_unpack_pattern hnum

theorem toNat_toBits_ofBits (h : bits ≤ infinityBits) :
    (Float.ofBits (UInt64.ofNat bits)).toBits.toNat = bits := by
  have hinf : infinityBits = 2047 * 2 ^ 52 := rfl
  rw [toBits_ofBits h]
  exact Nat.mod_eq_of_lt (by omega)

theorem magnitudeBits_ofBits (h : bits ≤ infinityBits) :
    magnitudeBits (Float.ofBits (UInt64.ofNat bits)) = bits := by
  have hinf : infinityBits = 2047 * 2 ^ 52 := rfl
  rw [magnitudeBits, toNat_toBits_ofBits h]
  exact Nat.mod_eq_of_lt (by omega)

theorem isNegative_ofBits (h : bits ≤ infinityBits) :
    isNegative (Float.ofBits (UInt64.ofNat bits)) = false := by
  have hinf : infinityBits = 2047 * 2 ^ 52 := rfl
  rw [isNegative, toNat_toBits_ofBits h]
  exact decide_eq_false (by omega)

/-- What the double made from a pattern unpacks to. -/
theorem unpack_ofBits (h : bits ≤ infinityBits) :
    (Float.ofBits (UInt64.ofNat bits)).toModel.unpack =
      Float.Model.UnpackedFloat.unpack Format.binary64 (UInt64.ofNat bits).toBitVec := by
  show Float.Model.UnpackedFloat.unpack Format.binary64
    (Float.ofBits (UInt64.ofNat bits)).toBits.toBitVec = _
  rw [toBits_ofBits h]

/-- A double without a sign is infinity, zero, or a positive number. -/
theorem unpack_cases (h : bits ≤ infinityBits) :
    (bits = infinityBits ∧
      (Float.ofBits (UInt64.ofNat bits)).toModel.unpack = .infinity .positive) ∨
    (bits ≠ infinityBits ∧
      ((Float.ofBits (UInt64.ofNat bits)).toModel.unpack = .zero .positive ∨
        ∃ m e hm, (Float.ofBits (UInt64.ofNat bits)).toModel.unpack =
          .finite .positive m e hm)) := by
  obtain ⟨e, m, hpat, hnum, hiff⟩ := exists_pattern h
  have hsign : Sign.ofBitVec (Sign.toBitVec .positive) = .positive := rfl
  rw [unpack_ofBits h, hpat]
  unfold Float.Model.UnpackedFloat.unpack
  simp only [unpackExponent_packComponents, unpackMantissa_packComponents, unpackSign_pattern,
    hsign]
  by_cases hinf : e = -1#11
  · exact .inl ⟨hiff.1 hinf, by rw [if_pos hinf, if_pos (hnum hinf)]⟩
  · rw [if_neg hinf]
    refine .inr ⟨mt hiff.2 hinf, ?_⟩
    split
    · by_cases hm : m = 0#52
      · exact .inl (dif_pos hm)
      · have hpos : 0 < m.toNat := Nat.pos_of_ne_zero fun h0 => hm (BitVec.eq_of_toNat_eq h0)
        exact .inr ⟨_, _, hpos, dif_neg hm⟩
    · have hpos : 0 < (1#1 ++ m).toNat := by
        refine Nat.pos_of_ne_zero fun h0 => ?_
        have hlog := log2_leading m
        rw [h0] at hlog
        cases hlog
      exact .inr ⟨_, _, hpos, rfl⟩

theorem isNaN_ofBits (h : bits ≤ infinityBits) :
    (Float.ofBits (UInt64.ofNat bits)).isNaN = false := by
  show Float.Model.UnpackedFloat.isNaN (Float.ofBits (UInt64.ofNat bits)).toModel.unpack = false
  rcases unpack_cases h with ⟨-, hu⟩ | ⟨-, hu | ⟨m, e, hm, hu⟩⟩ <;> rw [hu] <;> rfl

theorem isInf_ofBits (h : bits ≤ infinityBits) :
    (Float.ofBits (UInt64.ofNat bits)).isInf = true ↔ bits = infinityBits := by
  show Float.Model.UnpackedFloat.isInf (Float.ofBits (UInt64.ofNat bits)).toModel.unpack = true ↔ _
  rcases unpack_cases h with ⟨hinf, hu⟩ | ⟨hinf, hu | ⟨m, e, hm, hu⟩⟩
  · rw [hu]
    exact iff_of_true rfl hinf
  · rw [hu]
    exact iff_of_false nofun hinf
  · rw [hu]
    exact iff_of_false nofun hinf

theorem abs_ofBits (h : bits ≤ infinityBits) :
    (Float.ofBits (UInt64.ofNat bits)).abs = Float.ofBits (UInt64.ofNat bits) := by
  have habs : (Float.ofBits (UInt64.ofNat bits)).toModel.unpack.abs =
      (Float.ofBits (UInt64.ofNat bits)).toModel.unpack := by
    rcases unpack_cases h with ⟨-, hu⟩ | ⟨-, hu | ⟨m, e, hm, hu⟩⟩ <;> rw [hu] <;> rfl
  show Float.ofModel (.pack (Float.ofBits (UInt64.ofNat bits)).toModel.unpack.abs) =
    Float.ofModel (.pack (Float.Model.UnpackedFloat.unpack Format.binary64
      (UInt64.ofNat bits).toBitVec))
  rw [habs, unpack_ofBits h]

end Magnitude

end Calx.Number
