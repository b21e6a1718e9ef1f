import Calx.Proofs.Number.Rounding

/-!
# Written numerals

A numeral that is laid out for a decimal number denotes what that number rounds to
(`toFloat_ofDecimal`), and a numeral in canonical form is scanned back whole, whatever stops it
(`scan?_text`). The numeral written for a double is canonical (`canonical_ofFloat`) and denotes that
double (`toFloat_ofFloat`), so it reads back as itself.
-/

namespace Calx.Number

/-! ## Digits -/

/-- A run of characters does not go on into a text that starts with another one. -/
theorem takeWhile_append_of_head {p : Char → Bool} {rest : List Char}
    (h : ∀ c ∈ rest.head?, p c = false) (cs : List Char) :
    (cs ++ rest).takeWhile p = cs.takeWhile p := by
  rw [List.takeWhile_append]
  split
  · rename_i hall
    have hrest : rest.takeWhile p = [] := by
      cases rest with
      | nil => rfl
      | cons c rest => exact List.takeWhile_cons_of_neg (by simp [h c rfl])
    rw [hrest, List.append_nil, (List.takeWhile_prefix p).eq_of_length hall]
  · rfl

theorem digitsValue_eq (cs : List Char) : digitsValue cs = Nat.ofDigitChars 10 cs 0 :=
  Nat.ofDigitChars_eq_foldl.symm

theorem digitsValue_toDigits (n : Nat) : digitsValue (Nat.toDigits 10 n) = n := by
  rw [digitsValue_eq, Nat.ofDigitChars_ten_toDigits]

theorem digitsValue_zeros_append (k : Nat) (cs : List Char) :
    digitsValue (List.replicate k '0' ++ cs) = digitsValue cs := by
  rw [digitsValue_eq, Nat.ofDigitChars_append, Nat.ofDigitChars_replicate_zero, Nat.mul_zero,
    digitsValue_eq]

theorem digitsValue_append_zeros (cs : List Char) (k : Nat) :
    digitsValue (cs ++ List.replicate k '0') = digitsValue cs * 10 ^ k := by
  rw [digitsValue_eq, Nat.ofDigitChars_append, Nat.ofDigitChars_replicate_zero, Nat.mul_comm,
    digitsValue_eq]

/-- All characters are digits. -/
def AllDigits (cs : List Char) : Prop := ∀ c ∈ cs, c.isDigit = true

theorem AllDigits.append {cs ds : List Char} (h : AllDigits cs) (h' : AllDigits ds) :
    AllDigits (cs ++ ds) := by
  intro c hc
  rcases List.mem_append.1 hc with hc | hc
  · exact h c hc
  · exact h' c hc

theorem AllDigits.take {cs : List Char} (h : AllDigits cs) (k : Nat) : AllDigits (cs.take k) :=
  fun c hc => h c (List.mem_of_mem_take hc)

theorem AllDigits.drop {cs : List Char} (h : AllDigits cs) (k : Nat) : AllDigits (cs.drop k) :=
  fun c hc => h c (List.mem_of_mem_drop hc)

theorem allDigits_zeros (k : Nat) : AllDigits (List.replicate k '0') := by
  intro c hc
  rw [List.eq_of_mem_replicate hc]
  rfl

theorem allDigits_toDigits (n : Nat) : AllDigits (Nat.toDigits 10 n) :=
  fun _ hc => Nat.isDigit_of_mem_toDigits (by decide) (by decide) hc

/-- Only the digits of zero start with a zero. -/
theorem head?_toDigits {n : Nat} (h : n ≠ 0) : (Nat.toDigits 10 n).head? ≠ some '0' := by
  induction n using Nat.strongRecOn with
  | ind n ih =>
  by_cases hlt : n < 10
  · rw [Nat.toDigits_of_lt_base hlt]
    have hdigit : ∀ k < 10, k ≠ 0 → Nat.digitChar k ≠ '0' := by decide
    simpa using hdigit n hlt h
  · rw [Nat.toDigits_of_base_le (by decide) (by omega)]
    have hhead := ih (n / 10) (by omega) (by omega)
    obtain ⟨c, cs, hcs⟩ := List.exists_cons_of_ne_nil (@Nat.toDigits_ne_nil (n / 10) 10)
    rw [hcs] at hhead ⊢
    exact hhead

namespace Numeral

/-! ## Scanning back -/

/-- The form that numerals are scanned in. -/
structure Canonical (n : Numeral) : Prop where
  whole_ne_nil : n.whole ≠ []
  whole_digits : AllDigits n.whole
  leading : n.whole.head? = some '0' → n.whole = ['0']
  fraction_digits : AllDigits n.fraction
  exponent_ne_nil : ∀ e ∈ n.exponent, e.digits ≠ []
  exponent_digits : ∀ e ∈ n.exponent, AllDigits e.digits

/-- No numeral goes on with this text. -/
def Stops (cs : List Char) : Prop :=
  ∀ c ∈ cs.head?, c.isDigit = false ∧ c ≠ '.' ∧ c ≠ 'e' ∧ c ≠ 'E'

theorem digitRun_append {ds rest : List Char} (hds : AllDigits ds)
    (hrest : ∀ c ∈ rest.head?, c.isDigit = false) : digitRun (ds ++ rest) = ds := by
  rw [digitRun, takeWhile_append_of_head hrest, List.takeWhile_eq_self_iff.2 hds]

theorem wholeRun_append {ds rest : List Char} (hds : AllDigits ds)
    (hzero : ds.head? = some '0' → ds = ['0']) (hrest : ∀ c ∈ rest.head?, c.isDigit = false) :
    wholeRun (ds ++ rest) = ds := by
  by_cases h0 : ds.head? = some '0'
  · rw [hzero h0]
    rfl
  · have hne : ∀ cs, ds ++ rest ≠ '0' :: cs := by
      intro cs heq
      cases ds with
      | nil =>
        obtain rfl : rest = '0' :: cs := heq
        exact absurd (hrest '0' rfl) (by decide)
      | cons d ds =>
        cases heq
        exact h0 rfl
    unfold wholeRun
    split
    · rename_i cs heq
      exact absurd heq (hne cs)
    · exact digitRun_append hds hrest

theorem fractionRun_of_head {cs : List Char} (h : ∀ c ∈ cs.head?, c ≠ '.') :
    fractionRun cs = [] := by
  unfold fractionRun
  split
  · exact absurd rfl (h '.' rfl)
  · rfl

theorem exponentRun_of_stops {cs : List Char} (h : Stops cs) : exponentRun cs = none := by
  cases cs with
  | nil => rfl
  | cons c cs =>
    obtain ⟨-, -, he, hE⟩ := h c rfl
    simp only [exponentRun, he, hE, or_self, if_false]

theorem exponentRun_text {e : ExponentPart} {rest : List Char} (hne : e.digits ≠ [])
    (hds : AllDigits e.digits) (hrest : ∀ c ∈ rest.head?, c.isDigit = false) :
    exponentRun (e.text ++ rest) = some (e, e.text.length) := by
  obtain ⟨negative, ds⟩ := e
  have hrun := digitRun_append hds hrest
  cases negative with
  | false | true =>
    simp only [ExponentPart.text, exponentRun, List.cons_append, true_or, if_true,
      Bool.false_eq_true, if_false, List.drop_succ_cons, List.drop_zero, hrun]
    rw [if_neg hne]
    simp [Nat.add_comm, Nat.add_left_comm]

/-- The fraction of a numeral as it is written. -/
def fractionText (fraction : List Char) : List Char :=
  if fraction = [] then [] else '.' :: fraction

section FractionText

variable {ds rest : List Char}

theorem length_fractionText (ds : List Char) :
    (fractionText ds).length = if ds = [] then 0 else 1 + ds.length := by
  unfold fractionText
  split
  · rfl
  · rw [List.length_cons, Nat.add_comm]

theorem head_fractionText_append (hrest : ∀ c ∈ rest.head?, c.isDigit = false) :
    ∀ c ∈ (fractionText ds ++ rest).head?, c.isDigit = false := by
  unfold fractionText
  split
  · exact hrest
  · rintro c ⟨_⟩
    rfl

theorem fractionRun_fractionText (hds : AllDigits ds)
    (hrest : ∀ c ∈ rest.head?, c.isDigit = false ∧ c ≠ '.') :
    fractionRun (fractionText ds ++ rest) = ds := by
  unfold fractionText
  split
  · rename_i hnil
    rw [hnil]
    exact fractionRun_of_head fun c hc => (hrest c hc).2
  · exact digitRun_append hds fun c hc => (hrest c hc).1

end FractionText

/-- What follows the whole part of a numeral, and what follows its fraction, in a text. -/
theorem head_exponent_append {e : Option ExponentPart} {rest : List Char} (hrest : Stops rest) :
    ∀ c ∈ (e.elim [] ExponentPart.text ++ rest).head?, c.isDigit = false ∧ c ≠ '.' := by
  cases e with
  | none => exact fun c hc => ⟨(hrest c hc).1, (hrest c hc).2.1⟩
  | some e =>
    rintro c ⟨_⟩
    decide

theorem exponentRun_append {n : Numeral} (h : n.Canonical) {rest : List Char}
    (hrest : Stops rest) : exponentRun (n.exponent.elim [] ExponentPart.text ++ rest) =
      n.exponent.map fun e => (e, e.text.length) := by
  cases he : n.exponent with
  | none => exact exponentRun_of_stops hrest
  | some e =>
    exact exponentRun_text (h.exponent_ne_nil e he) (h.exponent_digits e he)
      fun c hc => (hrest c hc).1

/-- A numeral is scanned part by part: its digits, and what is scanned of an exponent behind them. -/
theorem scan?_parts {whole fraction tail : List Char} (hne : whole ≠ []) (hwhole : AllDigits whole)
    (hzero : whole.head? = some '0' → whole = ['0']) (hfraction : AllDigits fraction)
    (htail : ∀ c ∈ tail.head?, c.isDigit = false ∧ c ≠ '.') :
    scan? (whole ++ (fractionText fraction ++ tail)) =
      some (⟨whole, fraction, (exponentRun tail).map Prod.fst⟩,
        whole.length + (fractionText fraction).length + (exponentRun tail).elim 0 Prod.snd) := by
  have hdigits : wholeRun (whole ++ (fractionText fraction ++ tail)) = whole :=
    wholeRun_append hwhole hzero (head_fractionText_append fun c hc => (htail c hc).1)
  have hdrop : (whole ++ (fractionText fraction ++ tail)).drop
      (whole.length + (fractionText fraction).length) = tail := by
    rw [← List.append_assoc, ← List.length_append, List.drop_left]
  rw [scan?, hdigits]
  simp only [if_neg hne, List.drop_left, fractionRun_fractionText hfraction htail,
    ← length_fractionText, hdrop]
  cases exponentRun tail <;> rfl

/-- **Scanning inverts writing.** A numeral in canonical form is scanned back to its end. -/
theorem scan?_text {n : Numeral} (h : n.Canonical) {rest : List Char} (hrest : Stops rest) :
    scan? (n.text ++ rest) = some (n, n.text.length) := by
  have htext : n.text ++ rest = n.whole ++ (fractionText n.fraction ++
      (n.exponent.elim [] ExponentPart.text ++ rest)) := by
    simp only [text, fractionText, List.append_assoc]
  have hsize : n.text.length = n.whole.length + (fractionText n.fraction).length +
      (n.exponent.elim [] ExponentPart.text).length := by
    simp only [text, fractionText, List.length_append]
  rw [htext, hsize, scan?_parts h.whole_ne_nil h.whole_digits h.leading h.fraction_digits
    (head_exponent_append hrest), exponentRun_append h hrest]
  obtain ⟨whole, fraction, exponent⟩ := n
  cases exponent <;> rfl

/-! ## Layout -/

section Layout

variable {ds : List Char}

/-- A numeral without an exponent. -/
theorem toFloat_positional (whole fraction : List Char) :
    toFloat ⟨whole, fraction, none⟩ =
      Decimal.toFloat ⟨digitsValue (whole ++ fraction), -(fraction.length : Int)⟩ := by
  rw [toFloat, toDecimal]
  simp only [Option.elim, Int.zero_sub]

/-- The digits after the point may be padded, the whole part by zeros alone. -/
theorem toFloat_layout_of_nonneg (hne : ds ≠ []) {e : Nat} :
    toFloat ⟨ds.take (e + 1) ++ List.replicate (e + 1 - ds.length) '0',
        if ds.drop (e + 1) = [] then ['0'] else ds.drop (e + 1), none⟩ =
      Decimal.toFloat ⟨digitsValue ds, (e : Int) + 1 - ds.length⟩ := by
  have hpos := List.length_pos_iff.2 hne
  rw [toFloat_positional]
  by_cases hdrop : ds.drop (e + 1) = []
  · have hlen : ds.length ≤ e + 1 := List.drop_eq_nil_iff.1 hdrop
    have hpad : List.replicate (e + 1 - ds.length) '0' ++ ['0'] =
        List.replicate (e + 1 - ds.length + 1) '0' := List.replicate_succ'.symm
    rw [if_pos hdrop, List.take_of_length_le hlen, List.append_assoc, hpad,
      digitsValue_append_zeros, Decimal.toFloat_mul_pow]
    congr 2
    simp only [List.length_singleton]
    omega
  · have hlen : e + 1 < ds.length := by
      have := mt List.drop_eq_nil_iff.2 hdrop
      omega
    have hpad : e + 1 - ds.length = 0 := by omega
    rw [if_neg hdrop, hpad, List.replicate_zero, List.append_nil, List.take_append_drop,
      List.length_drop]
    congr 2
    omega

theorem value_exponent (e : Int) :
    ExponentPart.value ⟨e < 0, List.replicate (2 - (Nat.toDigits 10 e.natAbs).length) '0' ++
      Nat.toDigits 10 e.natAbs⟩ = e := by
  rw [ExponentPart.value]
  simp only [digitsValue_zeros_append, digitsValue_toDigits, decide_eq_true_eq]
  split <;> omega

/-- A layout denotes what its digits and its exponent say. -/
theorem toFloat_layout (hne : ds ≠ []) (e : Int) :
    toFloat (layout ds e) = Decimal.toFloat ⟨digitsValue ds, e + 1 - ds.length⟩ := by
  have hpos := List.length_pos_iff.2 hne
  unfold layout
  by_cases hrange : positionalFrom ≤ e ∧ e < positionalBelow
  · rw [if_pos hrange]
    by_cases hneg : e < 0
    · have hzero (k : Nat) : ['0'] ++ (List.replicate k '0' ++ ds) =
          List.replicate (k + 1) '0' ++ ds := rfl
      rw [if_pos hneg, toFloat_positional, hzero, digitsValue_zeros_append, List.length_append,
        List.length_replicate]
      congr 2
      omega
    · obtain ⟨k, rfl⟩ := Int.eq_ofNat_of_zero_le (Int.not_lt.1 hneg)
      rw [if_neg hneg]
      exact toFloat_layout_of_nonneg hne
  · rw [if_neg hrange, toFloat, toDecimal]
    simp only [List.take_append_drop, Option.elim, value_exponent, List.length_drop]
    congr 2
    omega

/-- The digits of a positive number, or of zero where it is written without an exponent. -/
def Leading (ds : List Char) (e : Int) : Prop :=
  ds.head? = some '0' → ds = ['0'] ∧ e = 0

theorem canonical_layout (hne : ds ≠ []) (hds : AllDigits ds) {e : Int} (hlead : Leading ds e) :
    (layout ds e).Canonical := by
  have hpos := List.length_pos_iff.2 hne
  obtain ⟨d, rest, rfl⟩ := List.exists_cons_of_ne_nil hne
  unfold layout
  by_cases hrange : positionalFrom ≤ e ∧ e < positionalBelow
  · rw [if_pos hrange]
    by_cases hneg : e < 0
    · rw [if_pos hneg]
      exact ⟨nofun, allDigits_zeros 1, fun _ => rfl, (allDigits_zeros _).append hds, nofun, nofun⟩
    · rw [if_neg hneg]
      refine ⟨?_, (hds.take _).append (allDigits_zeros _), ?_, ?_, nofun, nofun⟩
      · simp
      · intro h0
        obtain ⟨heq, rfl⟩ := hlead (by simpa using h0)
        cases heq
        rfl
      · simp only []
        split
        · exact allDigits_zeros 1
        · exact hds.drop _
  · rw [if_neg hrange]
    refine ⟨nofun, hds.take _, ?_, hds.drop _, ?_, ?_⟩
    · intro h0
      obtain ⟨-, rfl⟩ := hlead h0
      exact absurd (by decide) hrange
    · rintro _ ⟨_⟩
      simp [Nat.toDigits_ne_nil]
    · rintro _ ⟨_⟩
      exact (allDigits_zeros _).append (allDigits_toDigits _)

end Layout

/-! ## Decimal numbers and doubles -/

/-- The numeral laid out for a decimal number denotes what the number rounds to. -/
theorem toFloat_ofDecimal (d : Decimal) : toFloat (ofDecimal d) = d.toFloat := by
  obtain ⟨n, e⟩ := d
  rw [ofDecimal, toFloat_layout Nat.toDigits_ne_nil, digitsValue_toDigits]
  congr 2
  simp only []
  omega

theorem canonical_ofDecimal {d : Decimal} (h : d.significand ≠ 0) : (ofDecimal d).Canonical :=
  canonical_layout Nat.toDigits_ne_nil (allDigits_toDigits _)
    fun h0 => absurd h0 (head?_toDigits h)

theorem canonical_ofDecimal_zero : (ofDecimal ⟨0, 0⟩).Canonical :=
  canonical_layout Nat.toDigits_ne_nil (allDigits_toDigits 0) fun _ => ⟨rfl, rfl⟩

section OfFloat

variable {bits : Nat}

/-- The numeral written for a finite double denotes that double. -/
theorem toFloat_ofFloat (h : bits < infinityBits) :
    toFloat (ofFloat (Float.ofBits (UInt64.ofNat bits))) = Float.ofBits (UInt64.ofNat bits) := by
  rw [ofFloat, toFloat_ofDecimal, magnitudeBits_ofBits (Nat.le_of_lt h)]
  split
  · rename_i h0
    subst h0
    exact Decimal.toFloat_zero
  · exact Decimal.toFloat_ofFloat h

theorem canonical_ofFloat (h : bits < infinityBits) :
    (ofFloat (Float.ofBits (UInt64.ofNat bits))).Canonical := by
  rw [ofFloat, magnitudeBits_ofBits (Nat.le_of_lt h)]
  split
  · exact canonical_ofDecimal_zero
  · rename_i h0
    exact canonical_ofDecimal (Decimal.significand_ofFloat_ne_zero h h0)

end OfFloat

end Numeral

end Calx.Number
