import Calx.Text.Blank

/-!
# Lines and places

A text is a list of characters, and a place in it an offset: the number of characters before it.
Lines are numbered from 1 and end at a line feed only; a column is the distance of a place from the
start of its line, counted from 1. Main statements: the lines, joined again by line feeds, are the
text (`intercalate_lines`), and none of them holds one (`not_mem_of_mem_lines`).

Two other rules about line ends live here as well: `firstLine` stops at any character that ends a
line in print, and `unifyLineEnds` turns the line ends of other systems into line feeds.
-/

namespace Calx.Text

/-- The lines of a text: the pieces between its line feeds. -/
def lines : List Char → List (List Char)
  | [] => [[]]
  | c :: cs =>
    if c = '\n' then [] :: lines cs
    else
      match lines cs with
      | [] => [[c]]
      | l :: ls => (c :: l) :: ls

theorem lines_ne_nil (cs : List Char) : lines cs ≠ [] := by
  cases cs with
  | nil => simp [lines]
  | cons c cs =>
    rw [lines]
    split
    · simp
    · split <;> simp

theorem lines_newline (cs : List Char) : lines ('\n' :: cs) = [] :: lines cs := by
  simp [lines]

/-- A character that is no line feed joins the first line of the rest. -/
theorem lines_cons_of_ne {c : Char} (hc : c ≠ '\n') (cs : List Char) :
    ∃ l ls, lines cs = l :: ls ∧ lines (c :: cs) = (c :: l) :: ls := by
  obtain ⟨l, ls, h⟩ := List.exists_cons_of_ne_nil (lines_ne_nil cs)
  exact ⟨l, ls, h, by simp [lines, hc, h]⟩

/-- The lines, joined again by line feeds, are the text. -/
theorem intercalate_lines (cs : List Char) : ['\n'].intercalate (lines cs) = cs := by
  induction cs with
  | nil => rfl
  | cons c cs ih =>
    by_cases hc : c = '\n'
    · subst hc
      obtain ⟨l, ls, h⟩ := List.exists_cons_of_ne_nil (lines_ne_nil cs)
      rw [lines_newline, h, List.intercalate_cons_cons, ← h, ih]
      rfl
    · obtain ⟨l, ls, h, hcons⟩ := lines_cons_of_ne hc cs
      rw [hcons]
      rw [h] at ih
      cases ls with
      | nil => simpa [List.intercalate] using ih
      | cons l' ls => simpa [List.intercalate_cons_cons] using ih

/-- No line holds a line feed. -/
theorem not_mem_of_mem_lines {cs l : List Char} (h : l ∈ lines cs) : '\n' ∉ l := by
  induction cs generalizing l with
  | nil =>
    rw [lines, List.mem_singleton] at h
    simp [h]
  | cons c cs ih =>
    by_cases hc : c = '\n'
    · subst hc
      rw [lines_newline, List.mem_cons] at h
      rcases h with rfl | h
      · simp
      · exact ih h
    · obtain ⟨l', ls, hl, hcons⟩ := lines_cons_of_ne hc cs
      rw [hcons, List.mem_cons] at h
      rcases h with rfl | h
      · simp [Ne.symm hc, ih (hl ▸ List.mem_cons_self)]
      · exact ih (hl ▸ List.mem_cons_of_mem _ h)

/-- The lines that a reader of the text meets: a line feed at the very end closes the last line and
opens none. -/
def inputLines (cs : List Char) : List (List Char) :=
  match (lines cs).reverse with
  | [] :: ls => ls.reverse
  | ls => ls.reverse

/-- A line and a column, each from 1. -/
structure Place where
  /-- The line. -/
  line : Nat
  /-- The column. -/
  column : Nat
deriving DecidableEq

/-- The place at an offset. Behind the end of the text the columns of its last line go on. -/
def placeAt : List Char → (offset : Nat) → Place
  | _, 0 => ⟨1, 1⟩
  | [], offset + 1 => ⟨1, offset + 2⟩
  | c :: cs, offset + 1 =>
    let p := placeAt cs offset
    if c = '\n' then ⟨p.line + 1, p.column⟩
    else if p.line = 1 then ⟨1, p.column + 1⟩
    else p

/-- The characters that end a line in print, as inclusive ranges of code points. -/
def lineEndRanges : List (Nat × Nat) :=
  [(0x0A, 0x0D), (0x1C, 0x1E), (0x85, 0x85), (0x2028, 0x2029)]

/-- A character ends a line in print if its code point lies in one of the `lineEndRanges`. -/
def isLineEnd (c : Char) : Bool :=
  lineEndRanges.any fun r => r.1 ≤ c.toNat && c.toNat ≤ r.2

/-- The text up to its first line end in print. -/
def firstLine (cs : List Char) : List Char :=
  cs.takeWhile fun c => !isLineEnd c

/-- A carriage return, alone or with the line feed after it, becomes a line feed. -/
def unifyLineEnds : List Char → List Char
  | [] => []
  | '\r' :: '\n' :: cs => '\n' :: unifyLineEnds cs
  | c :: cs => (if c = '\r' then '\n' else c) :: unifyLineEnds cs

theorem unifyLineEnds_of_not_mem {cs : List Char} (h : '\r' ∉ cs) : unifyLineEnds cs = cs := by
  fun_induction unifyLineEnds cs with
  | case1 => rfl
  | case2 cs ih => simp at h
  | case3 c cs _ ih =>
    simp only [List.mem_cons, not_or] at h
    rw [ih h.2, if_neg (Ne.symm h.1)]

/-- A text padded with spaces on its left to `width` characters. -/
def padLeft (width : Nat) (s : String) : String :=
  "".pushn ' ' (width - s.length) ++ s

end Calx.Text
