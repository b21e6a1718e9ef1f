import Calx.Token.Cut

/-!
# What is cut

`Cut.IsAt` has one case for each way in which a token is cut; the first character settles which one
it is, and there is no other (`Token.cut_eq_some_iff`). Where no token can be cut, the first character
is to blame, or what stands behind a quotation mark (`Token.cut_cons`).
-/

namespace Calx

open Number

namespace Token

/-- No word and no numeral starts with a mark. -/
theorem ofPunctuation?_of_isWordChar {c : Char} (hc : isWordChar c = true) :
    ofPunctuation? c = none := by
  unfold ofPunctuation?
  split <;> first | rfl | cases hc

theorem isWordChar_of_isDigit {c : Char} (hc : c.isDigit = true) : isWordChar c = true := by
  simp only [isWordChar, Char.isAlphanum, hc, Bool.or_true, Bool.true_or]

theorem isWordStart_of_isDigit {c : Char} (hc : c.isDigit = true) : isWordStart c = false := by
  have hrange : 48 ≤ c.toNat ∧ c.toNat ≤ 57 := by
    simp only [Char.isDigit, Bool.and_eq_true, decide_eq_true_eq] at hc
    exact ⟨UInt32.le_iff_toNat_le.1 hc.1, UInt32.le_iff_toNat_le.1 hc.2⟩
  cases h : isWordStart c with
  | false => rfl
  | true =>
    have hranges : (((0x41 ≤ c.val ∧ c.val ≤ 0x5A) || (0x61 ≤ c.val && c.val ≤ 0x7A)) ||
        c == '_') = true := h
    simp only [Bool.or_eq_true, Bool.and_eq_true, decide_eq_true_eq, beq_iff_eq] at hranges
    rcases hranges with (h | h) | rfl
    · have := UInt32.le_iff_toNat_le.1 h.1
      exact absurd (Nat.le_trans this hrange.2) (by decide)
    · have := UInt32.le_iff_toNat_le.1 h.1
      exact absurd (Nat.le_trans this hrange.2) (by decide)
    · exact absurd hrange.2 (by decide)

end Token

/-- A numeral starts with a digit. -/
theorem Number.Numeral.isDigit_of_scan? {c : Char} {cs : List Char} {r : Numeral × Nat}
    (h : scan? (c :: cs) = some r) : c.isDigit = true := by
  by_cases hc : c.isDigit = true
  · exact hc
  · have hzero : c ≠ '0' := by
      rintro rfl
      exact hc rfl
    have hrun : wholeRun (c :: cs) = [] := by
      unfold wholeRun
      split
      · rename_i heq
        cases heq
        exact absurd rfl hzero
      · exact List.takeWhile_cons_of_neg hc
    rw [scan?, hrun] at h
    cases h

/-- What is cut from a text: a mark, a word, a number or a string. -/
inductive Cut.IsAt : List Char → Cut → Prop
  | mark {c : Char} {t : Token} {cs : List Char} :
      Token.ofPunctuation? c = some t → IsAt (c :: cs) ⟨t, 1⟩
  | word {c : Char} {cs : List Char} :
      Token.isWordStart c = true → IsAt (c :: cs) (Token.cutWord (c :: cs))
  | number {n : Numeral} {width : Nat} {cs : List Char} :
      Numeral.scan? cs = some (n, width) → IsAt cs ⟨.number n.toFloat, width⟩
  | string {ds : List Char} {width : Nat} {cs : List Char} :
      Quoted.decode cs = .ok (ds, width) → IsAt ('"' :: cs) ⟨.string (String.ofList ds), width + 1⟩

namespace Token

theorem cut_quotationMark (cs : List Char) : cut ('"' :: cs) =
    (Quoted.decode cs).map fun r => some ⟨.string (String.ofList r.1), r.2 + 1⟩ := by
  have hscan : Numeral.scan? ('"' :: cs) = none := by
    simp [Numeral.scan?, Numeral.wholeRun, Numeral.digitRun]
  have hcut : cut ('"' :: cs) = (cutString ('"' :: cs)).map some := by
    simp only [cut, hscan]
    rfl
  rw [hcut, cutString, List.drop_succ_cons, List.drop_zero]
  cases Quoted.decode cs <;> rfl

theorem cut_of_isAt {cs : List Char} {c : Cut} (h : c.IsAt cs) : cut cs = .ok (some c) := by
  cases h with
  | mark hc => simp only [cut, hc]
  | word hc =>
    rw [cut, ofPunctuation?_of_isWordChar (isWordChar_of_isWordStart hc)]
    simp only [hc, if_true]
  | number hscan =>
    cases cs with
    | nil => cases hscan
    | cons c cs =>
      have hdigit := Numeral.isDigit_of_scan? hscan
      rw [cut, ofPunctuation?_of_isWordChar (isWordChar_of_isDigit hdigit)]
      simp only [isWordStart_of_isDigit hdigit, Bool.false_eq_true, if_false, hscan]
  | string hdecode =>
    rw [cut_quotationMark, hdecode]
    rfl

/-- What cutting comes to where there is a character. -/
theorem cut_cons (c : Char) (cs : List Char) :
    (∃ t, t.IsAt (c :: cs) ∧ cut (c :: cs) = .ok (some t)) ∨
      (c = '"' ∧ ∃ e, Quoted.decode cs = .error e ∧ cut (c :: cs) = .error e) ∨
      c ≠ '"' ∧ cut (c :: cs) = .error (.unexpectedCharacter c) := by
  by_cases hquote : c = '"'
  · subst hquote
    rw [cut_quotationMark]
    cases hdecode : Quoted.decode cs with
    | error e => exact .inr (.inl ⟨rfl, e, rfl, rfl⟩)
    | ok r => exact .inl ⟨_, .string hdecode, rfl⟩
  cases hmark : ofPunctuation? c with
  | some t => exact .inl ⟨_, .mark hmark, cut_of_isAt (.mark hmark)⟩
  | none =>
    by_cases hword : isWordStart c = true
    · exact .inl ⟨_, .word hword, cut_of_isAt (.word hword)⟩
    · cases hscan : Numeral.scan? (c :: cs) with
      | some r => exact .inl ⟨_, .number hscan, cut_of_isAt (.number hscan)⟩
      | none =>
        refine .inr (.inr ⟨hquote, ?_⟩)
        simp only [cut, hmark, hword, hscan, hquote, Bool.false_eq_true, if_false]

theorem cut_eq_some_iff {cs : List Char} {c : Cut} : cut cs = .ok (some c) ↔ c.IsAt cs := by
  refine ⟨fun h => ?_, cut_of_isAt⟩
  cases cs with
  | nil => cases h
  | cons first cs =>
    rcases cut_cons first cs with ⟨t, ht, hcut⟩ | ⟨-, e, -, hcut⟩ | ⟨-, hcut⟩ <;>
      cases hcut.symm.trans h
    exact ht

end Token

end Calx
