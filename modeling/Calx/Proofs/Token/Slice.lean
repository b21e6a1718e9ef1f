import Mathlib.Data.List.TakeWhile
import Calx.Proofs.Token.Cut
import Calx.Proofs.Token.Literal

/-!
# Cutting a slice

A token is cut from its own characters alone, although the cut looks at what stands behind them: a
text that ends behind the token, at once or later, is cut alike (`cut_take`). The scanners of
numerals and string literals behave the same way. No token starts with layout, so the slice of a
token has none to be skipped (`cutPast_take`).
-/

namespace Calx

/-! ## Numerals -/

namespace Number.Numeral

theorem digitRun_take (cs : List Char) (n : Nat) : digitRun (cs.take n) = (digitRun cs).take n :=
  List.take_takeWhile.symm

theorem digitRun_take_of_le {cs : List Char} {n : Nat} (h : (digitRun cs).length ≤ n) :
    digitRun (cs.take n) = digitRun cs := by
  rw [digitRun_take, List.take_of_length_le h]

theorem wholeRun_cons_of_ne {c : Char} (hc : c ≠ '0') (cs : List Char) :
    wholeRun (c :: cs) = digitRun (c :: cs) := by
  unfold wholeRun
  split
  · rename_i heq
    cases heq
    exact absurd rfl hc
  · rfl

theorem wholeRun_take_of_le {cs : List Char} {n : Nat} (h : (wholeRun cs).length ≤ n) :
    wholeRun (cs.take n) = wholeRun cs := by
  cases cs with
  | nil => rw [List.take_nil]
  | cons c cs =>
    cases n with
    | zero => rw [List.take_zero, List.length_eq_zero_iff.1 (Nat.le_zero.1 h)]; rfl
    | succ n =>
      rw [List.take_succ_cons]
      by_cases hc : c = '0'
      · subst hc
        rfl
      · rw [wholeRun_cons_of_ne hc] at h ⊢
        rw [wholeRun_cons_of_ne hc, ← List.take_succ_cons, digitRun_take_of_le h]

theorem fractionRun_cons_of_ne {c : Char} (hc : c ≠ '.') (cs : List Char) :
    fractionRun (c :: cs) = [] := by
  unfold fractionRun
  split
  · rename_i heq
    cases heq
    exact absurd rfl hc
  · rfl

theorem fractionRun_take (cs : List Char) (n : Nat) :
    fractionRun (cs.take n) = (fractionRun cs).take (n - 1) := by
  cases cs with
  | nil => rw [List.take_nil]; exact List.take_nil.symm
  | cons c cs =>
    cases n with
    | zero => rfl
    | succ n =>
      rw [List.take_succ_cons, Nat.add_sub_cancel]
      by_cases hc : c = '.'
      · subst hc
        exact digitRun_take cs n
      · rw [fractionRun_cons_of_ne hc, fractionRun_cons_of_ne hc, List.take_nil]

/-- The exponent that digits behind a mark and `sign` more characters make. -/
def exponentOf (negative : Bool) (sign : Nat) (cs : List Char) : Option (ExponentPart × Nat) :=
  if digitRun cs = [] then none
  else some (⟨negative, digitRun cs⟩, 1 + sign + (digitRun cs).length)

theorem exponentRun_cons_of_ne {mark : Char} (hmark : ¬(mark = 'e' ∨ mark = 'E'))
    (cs : List Char) : exponentRun (mark :: cs) = none := by
  simp only [exponentRun, if_neg hmark]

/-- The sign at the start of a text: whether it is a minus, and how many characters it takes. -/
def signRun : List Char → Bool × Nat
  | '+' :: _ => (false, 1)
  | '-' :: _ => (true, 1)
  | _ => (false, 0)

theorem exponentRun_cons_of_mark {mark : Char} (hmark : mark = 'e' ∨ mark = 'E') (cs : List Char) :
    exponentRun (mark :: cs) =
      exponentOf (signRun cs).1 (signRun cs).2 (cs.drop (signRun cs).2) := by
  simp only [exponentRun, if_pos hmark]
  split
  · rfl
  · rfl
  · rename_i hplus hminus
    rw [signRun.eq_3 cs hplus hminus]
    rfl

/-- A sign takes one character or none. -/
theorem signRun_le (cs : List Char) : (signRun cs).2 ≤ 1 ∧ (signRun cs).2 ≤ cs.length := by
  unfold signRun
  split <;> simp

theorem signRun_take {n : Nat} (hn : 0 < n) (cs : List Char) : signRun (cs.take n) = signRun cs := by
  obtain ⟨n, rfl⟩ := Nat.exists_eq_add_one_of_ne_zero (Nat.ne_of_gt hn)
  cases cs with
  | nil => rw [List.take_nil]
  | cons c cs =>
    rw [List.take_succ_cons]
    unfold signRun
    split <;> simp_all

theorem length_lt_of_mem_exponentOf {negative : Bool} {sign : Nat} {cs : List Char}
    {r : ExponentPart × Nat} (h : r ∈ exponentOf negative sign cs) : 1 + sign < r.2 := by
  unfold exponentOf at h
  split at h
  · cases h
  · rename_i hne
    cases h
    have := List.length_pos_iff.2 hne
    omega

theorem exponentOf_take_of_le {negative : Bool} {sign n : Nat} {cs : List Char}
    (h : ∀ r ∈ exponentOf negative sign cs, r.2 ≤ 1 + sign + n) :
    exponentOf negative sign (cs.take n) = exponentOf negative sign cs := by
  unfold exponentOf at h ⊢
  by_cases hnil : digitRun cs = []
  · rw [digitRun_take, hnil, List.take_nil]
  · have hle : 1 + sign + (digitRun cs).length ≤ 1 + sign + n := h _ (if_neg hnil)
    rw [digitRun_take_of_le (by omega)]

theorem exponentOf_eq_none_of_le {negative : Bool} {sign n : Nat} {cs : List Char}
    (h : ∀ r ∈ exponentOf negative sign cs, r.2 ≤ n) (hn : n ≤ 1 + sign) :
    exponentOf negative sign cs = none := by
  cases hr : exponentOf negative sign cs with
  | none => rfl
  | some r =>
    have hlt := length_lt_of_mem_exponentOf hr
    have hle := h r hr
    omega

theorem exponentRun_take_of_le {cs : List Char} {n : Nat} (h : ∀ r ∈ exponentRun cs, r.2 ≤ n) :
    exponentRun (cs.take n) = exponentRun cs := by
  cases cs with
  | nil => rw [List.take_nil]
  | cons mark cs =>
    by_cases hmark : mark = 'e' ∨ mark = 'E'
    · rw [exponentRun_cons_of_mark hmark] at h ⊢
      have hsign := (signRun_le cs).1
      match n with
      | 0 => exact (exponentOf_eq_none_of_le h (Nat.zero_le _)).symm
      | 1 =>
        have hmarkAlone : exponentRun [mark] = none := exponentRun_cons_of_mark hmark []
        rw [exponentOf_eq_none_of_le h (Nat.le_add_right _ _), ← hmarkAlone]
        rfl
      | n + 2 =>
        rw [List.take_succ_cons, exponentRun_cons_of_mark hmark, signRun_take (Nat.succ_pos n),
          List.drop_take]
        exact exponentOf_take_of_le fun r hr => Nat.le_trans (h r hr) (by omega)
    · rw [exponentRun_cons_of_ne hmark]
      cases n with
      | zero => rfl
      | succ n => rw [List.take_succ_cons, exponentRun_cons_of_ne hmark]

/-- A numeral is scanned alike in a text that ends behind it. -/
theorem scan?_take {cs : List Char} {n width : Nat} {numeral : Numeral}
    (h : scan? cs = some (numeral, width)) (hn : width ≤ n) :
    scan? (cs.take n) = some (numeral, width) := by
  unfold scan? at h ⊢
  by_cases hw : wholeRun cs = []
  · rw [if_pos hw] at h
    cases h
  rw [if_neg hw] at h
  dsimp only at h ⊢
  generalize hf : fractionRun (cs.drop (wholeRun cs).length) = fraction at h
  generalize hm : (wholeRun cs).length + (if fraction = [] then 0 else 1 + fraction.length) =
    mantissa at h
  have hexp : ∀ r ∈ exponentRun (cs.drop mantissa), r.2 ≤ n - mantissa := by
    intro r hr
    rw [hr] at h
    cases h
    omega
  have hmantissa : mantissa ≤ n := by
    split at h <;> cases h <;> omega
  have hwhole : wholeRun (cs.take n) = wholeRun cs := wholeRun_take_of_le (by omega)
  have hfraction : fractionRun ((cs.take n).drop (wholeRun cs).length) = fraction := by
    rw [List.drop_take, fractionRun_take, hf]
    refine List.take_of_length_le ?_
    split at hm
    · rename_i hnil
      rw [hnil]
      exact Nat.zero_le _
    · omega
  rw [hwhole, if_neg hw, hfraction, hm, List.drop_take, exponentRun_take_of_le hexp]
  exact h

/-! ### Widths -/

theorem length_digitRun_le (cs : List Char) : (digitRun cs).length ≤ cs.length :=
  (List.takeWhile_prefix _).length_le

theorem length_wholeRun_le (cs : List Char) : (wholeRun cs).length ≤ cs.length := by
  cases cs with
  | nil => exact Nat.zero_le _
  | cons c cs =>
    by_cases hc : c = '0'
    · subst hc
      exact Nat.succ_le_succ (Nat.zero_le _)
    · rw [wholeRun_cons_of_ne hc]
      exact length_digitRun_le _

theorem length_fractionRun_lt {cs : List Char} (h : fractionRun cs ≠ []) :
    (fractionRun cs).length < cs.length := by
  cases cs with
  | nil => exact absurd rfl h
  | cons c cs =>
    by_cases hc : c = '.'
    · subst hc
      exact Nat.lt_succ_of_le (length_digitRun_le cs)
    · exact absurd (fractionRun_cons_of_ne hc cs) h

theorem width_exponentRun_le {cs : List Char} {r : ExponentPart × Nat} (h : r ∈ exponentRun cs) :
    r.2 ≤ cs.length := by
  cases cs with
  | nil => cases h
  | cons mark cs =>
    by_cases hmark : mark = 'e' ∨ mark = 'E'
    · rw [exponentRun_cons_of_mark hmark] at h
      unfold exponentOf at h
      split at h
      · cases h
      · rename_i hne
        cases h
        have hle := length_digitRun_le (cs.drop (signRun cs).2)
        have hpos := List.length_pos_iff.2 hne
        rw [List.length_drop] at hle
        rw [List.length_cons]
        dsimp only
        omega
    · rw [exponentRun_cons_of_ne hmark] at h
      cases h

theorem width_scan?_le {cs : List Char} {numeral : Numeral} {width : Nat}
    (h : scan? cs = some (numeral, width)) : width ≤ cs.length := by
  unfold scan? at h
  by_cases hw : wholeRun cs = []
  · rw [if_pos hw] at h
    cases h
  rw [if_neg hw] at h
  dsimp only at h
  generalize hm : (wholeRun cs).length + (if fractionRun (cs.drop (wholeRun cs).length) = [] then 0
    else 1 + (fractionRun (cs.drop (wholeRun cs).length)).length) = mantissa at h
  have hmantissa : mantissa ≤ cs.length := by
    have hwhole := length_wholeRun_le cs
    split at hm
    · omega
    · rename_i hne
      have hfraction := length_fractionRun_lt hne
      rw [List.length_drop] at hfraction
      omega
  split at h
  · cases h
    exact hmantissa
  · rename_i exponent length hexp
    cases h
    have hle := width_exponentRun_le hexp
    rw [List.length_drop] at hle
    omega

end Number.Numeral

/-! ## String literals -/

/-- A string literal is read alike in a text that ends behind its closing quote. -/
theorem Quoted.decode_take {cs body : List Char} {n width : Nat}
    (h : Quoted.decode cs = .ok (body, width)) (hn : width ≤ n) :
    Quoted.decode (cs.take n) = .ok (body, width) := by
  obtain ⟨chars, rest, rfl, hspells, rfl⟩ := Quoted.spells_of_decode h
  obtain ⟨k, rfl⟩ := Nat.exists_eq_add_of_le hn
  rw [Nat.add_assoc, List.take_length_add_append, Nat.add_comm 1, List.take_succ_cons]
  exact Quoted.decode_of_spells hspells _

theorem Quoted.width_decode_le {cs body : List Char} {width : Nat}
    (h : Quoted.decode cs = .ok (body, width)) : width ≤ cs.length := by
  obtain ⟨chars, rest, rfl, -, rfl⟩ := Quoted.spells_of_decode h
  rw [List.length_append, List.length_cons]
  omega

/-! ## Tokens -/

namespace Token

/-- **A token is cut from its own characters.** A text that ends behind the token, at once or later,
is cut alike. -/
theorem cut_take {cs : List Char} {c : Cut} {n : Nat} (h : cut cs = .ok (some c))
    (hn : c.width ≤ n) : cut (cs.take n) = .ok (some c) := by
  have hpos := width_pos_of_cut h
  obtain ⟨m, rfl⟩ : ∃ m, n = m + 1 := ⟨n - 1, by omega⟩
  cases cut_eq_some_iff.1 h with
  | mark hc => exact cut_of_isAt (.mark hc)
  | @word first cs hc =>
    have hrun := List.take_takeWhile (i := m + 1) (l := first :: cs) (p := isWordChar)
    rw [List.take_of_length_le hn, List.take_succ_cons] at hrun
    rw [List.take_succ_cons, cut_of_isAt (.word hc), cutWord, cutWord, hrun]
  | number hscan => exact cut_of_isAt (.number (Number.Numeral.scan?_take hscan hn))
  | string hdecode =>
    exact cut_of_isAt (.string (Quoted.decode_take hdecode (Nat.le_of_succ_le_succ hn)))

/-- A token takes no more characters than there are. -/
theorem width_le_of_cut {cs : List Char} {c : Cut} (h : cut cs = .ok (some c)) :
    c.width ≤ cs.length := by
  cases cut_eq_some_iff.1 h with
  | mark => exact Nat.succ_le_succ (Nat.zero_le _)
  | word => exact (List.takeWhile_prefix _).length_le
  | number hscan => exact Number.Numeral.width_scan?_le hscan
  | string hdecode => exact Nat.succ_le_succ (Quoted.width_decode_le hdecode)

/-! ## Layout -/

theorem layoutWidth_le (cs : List Char) : layoutWidth cs ≤ cs.length :=
  (List.takeWhile_prefix _).length_le

theorem isLayout_of_mem_take {cs : List Char} {d : Char} (h : d ∈ cs.take (layoutWidth cs)) :
    Text.isLayout d = true := by
  rw [layoutWidth, ← List.prefix_iff_eq_take.1 (List.takeWhile_prefix _)] at h
  exact (List.all_eq_true.1 List.all_takeWhile) d h

/-- What is left behind the layout does not start with layout. -/
theorem layoutWidth_drop (cs : List Char) : layoutWidth (cs.drop (layoutWidth cs)) = 0 := by
  induction cs with
  | nil => rfl
  | cons d cs ih =>
    cases hd : Text.isLayout d with
    | true => rwa [layoutWidth_cons_of_layout hd, List.drop_succ_cons]
    | false => rw [layoutWidth_cons_of_other hd, List.drop_zero, layoutWidth_cons_of_other hd]

/-- The layout in front of a text is known from where something else stands. -/
theorem layoutWidth_eq {cs : List Char} {n : Nat} (hn : n ≤ cs.length)
    (hall : ∀ d ∈ cs.take n, Text.isLayout d = true) (hrest : layoutWidth (cs.drop n) = 0) :
    layoutWidth cs = n := by
  induction n generalizing cs with
  | zero => rwa [List.drop_zero] at hrest
  | succ n ih =>
    cases cs with
    | nil => exact absurd hn (Nat.not_succ_le_zero n)
    | cons d cs =>
      rw [List.take_succ_cons, List.forall_mem_cons] at hall
      rw [layoutWidth_cons_of_layout hall.1, ih (Nat.le_of_succ_le_succ hn) hall.2 hrest]

/-- A text that is cut off no earlier has the same layout in front. -/
theorem layoutWidth_take_of_le {cs : List Char} {n : Nat} (h : layoutWidth cs ≤ n) :
    layoutWidth (cs.take n) = layoutWidth cs := by
  rw [layoutWidth, ← List.take_takeWhile, List.take_of_length_le h]
  rfl

/-- Cutting finds no token and no error exactly where there is nothing but layout. -/
theorem cutPast_eq_none_iff {cs : List Char} :
    cutPast cs = .ok none ↔ ∀ d ∈ cs, Text.isLayout d = true := by
  have hsplit : (∀ d ∈ cs, Text.isLayout d = true) ↔ cs.drop (layoutWidth cs) = [] := by
    constructor
    · intro hall
      rw [layoutWidth, List.takeWhile_eq_self_iff.2 hall, List.drop_length]
    · intro hnil d hd
      rw [← List.take_of_length_le (List.drop_eq_nil_iff.1 hnil)] at hd
      exact isLayout_of_mem_take hd
  rw [hsplit, cutPast]
  constructor
  · intro h
    obtain ⟨found, hcut, hfound⟩ := eq_ok_of_map h
    rw [Option.map_eq_none_iff] at hfound
    subst hfound
    exact eq_nil_of_cut hcut
  · intro h
    rw [h]
    rfl

theorem cut_layout {d : Char} (hd : Text.isLayout d = true) (cs : List Char) :
    cut (d :: cs) = .error (.unexpectedCharacter d) := by
  simp only [Text.isLayout, Bool.or_eq_true, beq_iff_eq] at hd
  rcases hd with ((rfl | rfl) | rfl) | rfl <;> rfl

/-- No token starts with layout. -/
theorem layoutWidth_of_cut {cs : List Char} {c : Cut} (h : cut cs = .ok (some c)) :
    layoutWidth cs = 0 := by
  cases cs with
  | nil => rfl
  | cons d cs =>
    cases hd : Text.isLayout d with
    | true =>
      rw [cut_layout hd] at h
      cases h
    | false => exact layoutWidth_cons_of_other hd cs

theorem cutPast_eq_cut {cs : List Char} (h : layoutWidth cs = 0) : cutPast cs = cut cs := by
  rw [cutPast, h, List.drop_zero]
  cases cut cs with
  | error e => rfl
  | ok found =>
    cases found with
    | none => rfl
    | some c => simp [Except.map]

/-- The slice of a token is cut into that token, and it holds nothing else. -/
theorem cutPast_take {cs : List Char} {c : Cut} (h : cut cs = .ok (some c)) :
    cutPast (cs.take c.width) = .ok (some c) := by
  have hslice := cut_take h (Nat.le_refl _)
  rw [cutPast_eq_cut (layoutWidth_of_cut hslice), hslice]

end Token

end Calx
