import Calx.Proofs.Number.Nearest
import Calx.Proofs.Number.Written
import Calx.Proofs.Token.Slice

/-!
# Spelled numerals

`Numeral.Spelled n cs` says that the characters `cs` spell the numeral `n`:

    (0 | [1-9] [0-9]*) ("." [0-9]+)? ([eE] [+-]? [0-9]+)?

A spelling is scanned whole (`Spelled.scan?_eq`), and what is scanned is spelled by the characters
that are taken (`spelled_of_scan?`). A numeral denotes a number (`Numeral.value`), and the double it
is read as is the nearest one to that number (`Numeral.isNearest_toFloat`).
-/

namespace Calx.Number

/-! ## The form of a numeral -/

/-- The digits before the point: a zero alone, or digits that do not start with a zero. -/
inductive IsWhole : List Char → Prop
  | zero : IsWhole ['0']
  | digits {d : Char} {ds : List Char} :
      d.isDigit = true → d ≠ '0' → AllDigits ds → IsWhole (d :: ds)

/-- The signs that an exponent can be written with, and whether they make it negative. -/
def signs : List (List Char × Bool) :=
  [([], false), (['+'], false), (['-'], true)]

/-- An exponent as it can be spelled; the one that is left out is spelled by nothing. -/
inductive ExponentPart.Spelled : Option ExponentPart → List Char → Prop
  | omitted : Spelled none []
  | digits {mark : Char} {sign ds : List Char} {negative : Bool} :
      mark = 'e' ∨ mark = 'E' → (sign, negative) ∈ signs → ds ≠ [] → AllDigits ds →
      Spelled (some ⟨negative, ds⟩) (mark :: (sign ++ ds))

namespace Numeral

/-- A numeral as it can be spelled. -/
inductive Spelled : Numeral → List Char → Prop
  | parts {whole fraction es : List Char} {exponent : Option ExponentPart} :
      IsWhole whole → AllDigits fraction → ExponentPart.Spelled exponent es →
      Spelled ⟨whole, fraction, exponent⟩ (whole ++ (fractionText fraction ++ es))

end Numeral

theorem IsWhole.ne_nil {cs : List Char} (h : IsWhole cs) : cs ≠ [] := by
  cases h <;> exact List.cons_ne_nil _ _

theorem IsWhole.allDigits {cs : List Char} (h : IsWhole cs) : AllDigits cs := by
  cases h with
  | zero => exact allDigits_zeros 1
  | digits hd _ hds => exact List.forall_mem_cons.2 ⟨hd, hds⟩

theorem IsWhole.eq_zero {cs : List Char} (h : IsWhole cs) (hzero : cs.head? = some '0') :
    cs = ['0'] := by
  cases h with
  | zero => rfl
  | digits _ hne _ => exact absurd (Option.some.inj hzero) hne

/-! ## A spelling is scanned -/

namespace Numeral

theorem signRun_append_of_mem {sign ds : List Char} {negative : Bool}
    (h : (sign, negative) ∈ signs) (hne : ds ≠ []) (hds : AllDigits ds) :
    signRun (sign ++ ds) = (negative, sign.length) := by
  simp only [signs, List.mem_cons, Prod.mk.injEq, List.mem_nil_iff, or_false] at h
  rcases h with ⟨rfl, rfl⟩ | ⟨rfl, rfl⟩ | ⟨rfl, rfl⟩
  · obtain ⟨d, ds, rfl⟩ := List.exists_cons_of_ne_nil hne
    have hd := hds d List.mem_cons_self
    rw [List.nil_append]
    refine signRun.eq_3 _ ?_ ?_
    · rintro _ ⟨_⟩
      exact absurd hd (by decide)
    · rintro _ ⟨_⟩
      exact absurd hd (by decide)
  · rfl
  · rfl

/-- An exponent is scanned to the end of its spelling. -/
theorem exponentRun_spelled {exponent : Option ExponentPart} {es : List Char}
    (h : ExponentPart.Spelled exponent es) :
    exponentRun es = exponent.map fun e => (e, es.length) := by
  cases h with
  | omitted => rfl
  | @digits mark sign ds negative hmark hsign hne hds =>
    have hrun : digitRun ds = ds := List.takeWhile_eq_self_iff.2 hds
    rw [exponentRun_cons_of_mark hmark, signRun_append_of_mem hsign hne hds, List.drop_left,
      exponentOf, hrun, if_neg hne]
    simp only [Option.map_some, List.length_cons, List.length_append]
    congr 2
    omega

theorem head_exponent_spelled {exponent : Option ExponentPart} {es : List Char}
    (h : ExponentPart.Spelled exponent es) : ∀ c ∈ es.head?, c.isDigit = false ∧ c ≠ '.' := by
  cases h with
  | omitted => exact nofun
  | digits hmark =>
    rintro _ ⟨_⟩
    rcases hmark with rfl | rfl <;> decide

/-- **A spelling is scanned to its end.** -/
theorem Spelled.scan?_eq {n : Numeral} {cs : List Char} (h : n.Spelled cs) :
    scan? cs = some (n, cs.length) := by
  obtain ⟨hwhole, hfraction, hexponent⟩ := h
  rw [scan?_parts hwhole.ne_nil hwhole.allDigits hwhole.eq_zero hfraction
    (head_exponent_spelled hexponent), exponentRun_spelled hexponent]
  cases hexponent with
  | omitted => simp
  | digits => simp [Nat.add_assoc]

/-! ## What is scanned is a spelling -/

theorem allDigits_digitRun (cs : List Char) : AllDigits (digitRun cs) :=
  fun _ => List.mem_takeWhile_imp

theorem take_digitRun (cs : List Char) : cs.take (digitRun cs).length = digitRun cs :=
  (List.prefix_iff_eq_take.1 (List.takeWhile_prefix _)).symm

theorem isWhole_wholeRun {cs : List Char} (h : wholeRun cs ≠ []) :
    IsWhole (wholeRun cs) ∧ cs.take (wholeRun cs).length = wholeRun cs := by
  cases cs with
  | nil => exact absurd rfl h
  | cons c cs =>
    by_cases hc : c = '0'
    · subst hc
      exact ⟨.zero, rfl⟩
    · rw [wholeRun_cons_of_ne hc] at h ⊢
      refine ⟨?_, take_digitRun _⟩
      by_cases hd : c.isDigit = true
      · have hrun : digitRun (c :: cs) = c :: digitRun cs := List.takeWhile_cons_of_pos hd
        rw [hrun]
        exact .digits hd hc (allDigits_digitRun cs)
      · exact absurd (List.takeWhile_cons_of_neg hd) h

theorem fractionText_fractionRun (cs : List Char) : AllDigits (fractionRun cs) ∧
    cs.take (fractionText (fractionRun cs)).length = fractionText (fractionRun cs) := by
  have hnone (h : fractionRun cs = []) : AllDigits (fractionRun cs) ∧
      cs.take (fractionText (fractionRun cs)).length = fractionText (fractionRun cs) := by
    rw [h]
    exact ⟨nofun, rfl⟩
  cases cs with
  | nil => exact hnone rfl
  | cons c cs =>
    by_cases hc : c = '.'
    · subst hc
      by_cases hds : digitRun cs = []
      · exact hnone hds
      · have hrun : fractionRun ('.' :: cs) = digitRun cs := rfl
        rw [hrun, fractionText, if_neg hds, List.length_cons, List.take_succ_cons, take_digitRun]
        exact ⟨allDigits_digitRun cs, rfl⟩
    · exact hnone (fractionRun_cons_of_ne hc cs)

theorem mem_signs_signRun (cs : List Char) :
    (cs.take (signRun cs).2, (signRun cs).1) ∈ signs := by
  unfold signRun
  split <;> simp [signs]

theorem spelled_of_exponentRun {cs : List Char} {e : ExponentPart} {width : Nat}
    (h : exponentRun cs = some (e, width)) : ExponentPart.Spelled (some e) (cs.take width) := by
  cases cs with
  | nil => cases h
  | cons mark cs =>
    by_cases hmark : mark = 'e' ∨ mark = 'E'
    · rw [exponentRun_cons_of_mark hmark, exponentOf] at h
      split at h
      · cases h
      · rename_i hne
        cases h
        rw [Nat.add_assoc, Nat.add_comm 1, List.take_succ_cons, List.take_add, take_digitRun]
        exact .digits hmark (mem_signs_signRun cs) hne (allDigits_digitRun _)
    · rw [exponentRun_cons_of_ne hmark] at h
      cases h

/-- **What is scanned is spelled by the characters that are taken.** -/
theorem spelled_of_scan? {n : Numeral} {cs : List Char} {width : Nat}
    (h : scan? cs = some (n, width)) : n.Spelled (cs.take width) := by
  unfold scan? at h
  by_cases hw : wholeRun cs = []
  · rw [if_pos hw] at h
    cases h
  obtain ⟨hwhole, htake⟩ := isWhole_wholeRun hw
  obtain ⟨hfraction, htake'⟩ := fractionText_fractionRun (cs.drop (wholeRun cs).length)
  rw [if_neg hw] at h
  simp only [← length_fractionText] at h
  split at h
  · cases h
    rw [List.take_add, htake, htake', ← List.append_nil (fractionText _)]
    exact .parts hwhole hfraction .omitted
  · rename_i e length hexponent
    cases h
    rw [Nat.add_assoc, List.take_add, List.take_add, htake, htake', List.drop_drop]
    exact .parts hwhole hfraction (spelled_of_exponentRun hexponent)

/-- There is a numeral where there is a digit. -/
theorem exists_scan?_of_isDigit {c : Char} (hc : c.isDigit = true) (cs : List Char) :
    ∃ r, scan? (c :: cs) = some r := by
  have hne : wholeRun (c :: cs) ≠ [] := by
    by_cases hzero : c = '0'
    · subst hzero
      exact List.cons_ne_nil _ _
    · have hrun : digitRun (c :: cs) = c :: digitRun cs := List.takeWhile_cons_of_pos hc
      rw [wholeRun_cons_of_ne hzero, hrun]
      exact List.cons_ne_nil _ _
  rw [scan?, if_neg hne]
  dsimp only
  split
  · exact ⟨_, rfl⟩
  · exact ⟨_, rfl⟩

/-! ## The number that a numeral denotes -/

/-- The power of ten that the exponent of a numeral scales it by. -/
def scale (n : Numeral) : ℤ :=
  match n.exponent with
  | none => 0
  | some ⟨false, digits⟩ => Nat.ofDigitChars 10 digits 0
  | some ⟨true, digits⟩ => -(Nat.ofDigitChars 10 digits 0 : ℤ)

/-- The number that a numeral denotes: its digits in base ten, those behind the point as a fraction,
scaled by its exponent. -/
def value (n : Numeral) : ℚ :=
  (Nat.ofDigitChars 10 n.whole 0 + Nat.ofDigitChars 10 n.fraction 0 / 10 ^ n.fraction.length) *
    10 ^ n.scale

theorem elim_exponent_eq_scale (n : Numeral) : n.exponent.elim 0 ExponentPart.value = n.scale := by
  obtain ⟨whole, fraction, _ | ⟨_ | _, digits⟩⟩ := n
  · rfl
  · exact congrArg Nat.cast (digitsValue_eq digits)
  · exact congrArg (fun k : Nat => -(k : ℤ)) (digitsValue_eq digits)

theorem value_toDecimal (n : Numeral) : n.toDecimal.value = n.value := by
  have hten : (10 : ℚ) ≠ 0 := by norm_num
  have hdigits : digitsValue (n.whole ++ n.fraction) =
      Nat.ofDigitChars 10 n.whole 0 * 10 ^ n.fraction.length +
        Nat.ofDigitChars 10 n.fraction 0 := by
    rw [digitsValue_eq, Nat.ofDigitChars_append, Nat.ofDigitChars_eq_ofDigitChars_zero,
      Nat.mul_comm]
  rw [Decimal.value, toDecimal, value, hdigits, elim_exponent_eq_scale, zpow_sub₀ hten,
    zpow_natCast]
  push_cast
  field_simp

/-- **A numeral is read as the nearest double to the number it denotes.** -/
theorem isNearest_toFloat (n : Numeral) : IsNearest n.value n.toFloat := by
  rw [← value_toDecimal, toFloat]
  exact Decimal.isNearest_toFloat _

end Numeral

end Calx.Number
