/-!
# Letters and digits

`isLetterOrDigit` tells the letters and the digits of the Latin script up to U+024F and of the Greek
and Cyrillic scripts, by Unicode 14. Raised digits are digits; marks that join the letter before
them are not letters. The ASCII letters and digits are among them (`isLetterOrDigit_of_isAlphanum`).
-/

namespace Calx.Text

/-- The code points of the letters and digits, as inclusive ranges in increasing order. -/
def letterOrDigitRanges : List (Nat × Nat) :=
  [(0x30, 0x39), (0x41, 0x5A), (0x61, 0x7A), (0xAA, 0xAA), (0xB2, 0xB3), (0xB5, 0xB5),
    (0xB9, 0xBA), (0xC0, 0xD6), (0xD8, 0xF6), (0xF8, 0x24F), (0x370, 0x374), (0x376, 0x377),
    (0x37A, 0x37D), (0x37F, 0x37F), (0x386, 0x386), (0x388, 0x38A), (0x38C, 0x38C),
    (0x38E, 0x3A1), (0x3A3, 0x3E1), (0x3F0, 0x3F5), (0x3F7, 0x481), (0x48A, 0x52F),
    (0x1C80, 0x1C88), (0x1D26, 0x1D2B), (0x1D5E, 0x1D5E), (0x1D60, 0x1D60), (0x1D66, 0x1D6A),
    (0x1D78, 0x1D78), (0x1F00, 0x1F15), (0x1F18, 0x1F1D), (0x1F20, 0x1F45), (0x1F48, 0x1F4D),
    (0x1F50, 0x1F57), (0x1F59, 0x1F59), (0x1F5B, 0x1F5B), (0x1F5D, 0x1F5D), (0x1F5F, 0x1F7D),
    (0x1F80, 0x1FB4), (0x1FB6, 0x1FBC), (0x1FBE, 0x1FBE), (0x1FC2, 0x1FC4), (0x1FC6, 0x1FCC),
    (0x1FD0, 0x1FD3), (0x1FD6, 0x1FDB), (0x1FE0, 0x1FEC), (0x1FF2, 0x1FF4), (0x1FF6, 0x1FFC),
    (0xA640, 0xA66E), (0xA67F, 0xA69D), (0xAB65, 0xAB65)]

/-- A character is a letter or a digit if its code point lies in one of the
`letterOrDigitRanges`. -/
def isLetterOrDigit (c : Char) : Bool :=
  letterOrDigitRanges.any fun r => r.1 ≤ c.toNat && c.toNat ≤ r.2

private theorem isLetterOrDigit_of_range {c : Char} {r : Nat × Nat} (hr : r ∈ letterOrDigitRanges)
    (hc : r.1 ≤ c.toNat ∧ c.toNat ≤ r.2) : isLetterOrDigit c = true :=
  List.any_eq_true.2 ⟨r, hr, by simp [hc.1, hc.2]⟩

theorem isLetterOrDigit_of_isAlphanum {c : Char} (h : c.isAlphanum = true) :
    isLetterOrDigit c = true := by
  have hranges : (((0x41 ≤ c.val ∧ c.val ≤ 0x5A) || (0x61 ≤ c.val && c.val ≤ 0x7A)) ||
      (0x30 ≤ c.val && c.val ≤ 0x39)) = true := h
  simp only [Bool.or_eq_true, Bool.and_eq_true, decide_eq_true_eq,
    UInt32.le_iff_toNat_le] at hranges
  rcases hranges with (h | h) | h
  · exact isLetterOrDigit_of_range (r := (0x41, 0x5A)) (by decide) h
  · exact isLetterOrDigit_of_range (r := (0x61, 0x7A)) (by decide) h
  · exact isLetterOrDigit_of_range (r := (0x30, 0x39)) (by decide) h

end Calx.Text
