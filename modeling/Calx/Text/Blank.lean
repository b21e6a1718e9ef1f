/-!
# White space

Two classes of characters. *Layout* (space, tab, carriage return, line feed) may stand between two
tokens. *Blank* is the white space of the whole character set; it is what trimming a line of input
removes. Every layout character is blank (`isBlank_of_isLayout`).
-/

namespace Calx.Text

/-- Layout is a space, a tab, a carriage return or a line feed. -/
def isLayout (c : Char) : Bool :=
  c == ' ' || c == '\t' || c == '\r' || c == '\n'

/-- The blank characters, as inclusive ranges of code points: the ASCII controls that move the
carriage, the four information separators, and the space characters of every script. -/
def blankRanges : List (Nat × Nat) :=
  [(0x09, 0x0D), (0x1C, 0x20), (0x85, 0x85), (0xA0, 0xA0), (0x1680, 0x1680), (0x2000, 0x200A),
    (0x2028, 0x2029), (0x202F, 0x202F), (0x205F, 0x205F), (0x3000, 0x3000)]

/-- A character is blank if its code point lies in one of the `blankRanges`. -/
def isBlank (c : Char) : Bool :=
  blankRanges.any fun r => r.1 ≤ c.toNat && c.toNat ≤ r.2

theorem isBlank_of_isLayout {c : Char} (h : isLayout c = true) : isBlank c = true := by
  simp only [isLayout, Bool.or_eq_true, beq_iff_eq] at h
  rcases h with ((rfl | rfl) | rfl) | rfl <;> decide

/-- The text from its first character that is not blank. -/
def trimLeft (cs : List Char) : List Char :=
  cs.dropWhile isBlank

/-- The text without the blank characters at its two ends. -/
def trim (cs : List Char) : List Char :=
  (trimLeft (trimLeft cs).reverse).reverse

end Calx.Text
