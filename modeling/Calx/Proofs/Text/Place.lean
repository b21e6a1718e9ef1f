import Mathlib
import Calx.Text.Lines

/-!
# Places and offsets

A place is a line and a column, an offset counts characters. Each offset of a text is at one place of
it (`placeAt_isIn`), and `Place.offset` goes back: the two determine each other (`offset_placeAt`,
`placeAt_offset`). At its place stands the character of the offset, unless that is a line feed, which
is on no line (`getElem?_placeAt`). Lines joined by line feeds are found again (`lines_intercalate`).
-/

namespace Calx.Text

/-! ## Lines -/

theorem lines_of_not_mem {cs : List Char} (h : '\n' ∉ cs) : lines cs = [cs] := by
  induction cs with
  | nil => rfl
  | cons c cs ih =>
    simp only [List.mem_cons, not_or] at h
    rw [lines, if_neg (Ne.symm h.1), ih h.2]

theorem lines_append_newline {cs : List Char} (h : '\n' ∉ cs) (rest : List Char) :
    lines (cs ++ '\n' :: rest) = cs :: lines rest := by
  induction cs with
  | nil => exact lines_newline rest
  | cons c cs ih =>
    simp only [List.mem_cons, not_or] at h
    rw [List.cons_append, lines, if_neg (Ne.symm h.1), ih h.2]

/-- Lines that are joined by line feeds are the lines of the text they make. -/
theorem lines_intercalate {ls : List (List Char)} (hne : ls ≠ []) (h : ∀ l ∈ ls, '\n' ∉ l) :
    lines (['\n'].intercalate ls) = ls := by
  induction ls with
  | nil => exact absurd rfl hne
  | cons l ls ih =>
    rw [List.forall_mem_cons] at h
    cases ls with
    | nil => rw [List.intercalate_singleton, lines_of_not_mem h.1]
    | cons l' ls =>
      rw [List.intercalate_cons_cons, List.append_assoc, List.singleton_append,
        lines_append_newline h.1, ih (List.cons_ne_nil _ _) h.2]

/-- A line feed at the very end opens an empty line. -/
theorem lines_concat_newline (cs : List Char) : lines (cs ++ ['\n']) = lines cs ++ [[]] := by
  induction cs with
  | nil => rfl
  | cons c cs ih =>
    by_cases hc : c = '\n'
    · subst hc
      rw [List.cons_append, lines_newline, lines_newline, ih, List.cons_append]
    · obtain ⟨l, ls, h, hcons⟩ := lines_cons_of_ne hc cs
      obtain ⟨l', ls', h', hcons'⟩ := lines_cons_of_ne hc (cs ++ ['\n'])
      rw [h, h', List.cons_append, List.cons.injEq] at ih
      rw [List.cons_append, hcons, hcons', ih.1, ih.2, List.cons_append]

/-- A reader does not meet that line. -/
theorem inputLines_concat_newline (cs : List Char) : inputLines (cs ++ ['\n']) = lines cs := by
  rw [inputLines, lines_concat_newline, List.reverse_append]
  exact List.reverse_reverse _

/-! ## Offsets -/

namespace Place

/-- The line of a text that a place is on. -/
def lineIn (p : Place) (cs : List Char) : List Char :=
  (lines cs).getD (p.line - 1) []

/-- The offset of a place: the lines in front of its line, each with the line feed behind it, and the
columns in front of its column. -/
def offset (p : Place) (cs : List Char) : Nat :=
  (((lines cs).take (p.line - 1)).map fun l => l.length + 1).sum + (p.column - 1)

/-- The place is on a line of the text, at one of its characters or right behind the last one. -/
structure IsIn (p : Place) (cs : List Char) : Prop where
  /-- Lines are counted from 1. -/
  line_pos : 1 ≤ p.line
  /-- There is such a line. -/
  line_le : p.line ≤ (lines cs).length
  /-- Columns are counted from 1. -/
  column_pos : 1 ≤ p.column
  /-- The line goes up to that column. -/
  column_le : p.column ≤ (p.lineIn cs).length + 1

end Place

/-- The place that is `k` characters behind the start of a line. -/
theorem placeAt_of_lines {cs l : List Char} {before after : List (List Char)} {k : Nat}
    (h : lines cs = before ++ l :: after) (hk : k ≤ l.length) :
    placeAt cs ((before.map fun l => l.length + 1).sum + k) = ⟨before.length + 1, k + 1⟩ := by
  induction cs generalizing before l k with
  | nil =>
    obtain ⟨rfl, ⟨⟩⟩ : before = [] ∧ l :: after = [[]] := by
      cases before with
      | nil => exact ⟨rfl, h.symm⟩
      | cons b before => simp [lines] at h
    obtain rfl : k = 0 := Nat.le_zero.1 hk
    rfl
  | cons c cs ih =>
    by_cases hc : c = '\n'
    · subst hc
      rw [lines_newline] at h
      cases before with
      | nil =>
        obtain ⟨rfl, -⟩ := List.cons.inj h
        obtain rfl : k = 0 := Nat.le_zero.1 hk
        rfl
      | cons b before =>
        obtain ⟨rfl, htail⟩ := List.cons.inj h
        have hsum : (List.map (fun l : List Char => l.length + 1) ([] :: before)).sum + k =
            (before.map fun l => l.length + 1).sum + k + 1 := by
          simp only [List.map_cons, List.sum_cons, List.length_nil]
          omega
        rw [hsum, placeAt, ih htail hk, if_pos rfl, List.length_cons]
    · obtain ⟨first, rest, hfirst, hcons⟩ := lines_cons_of_ne hc cs
      rw [hcons] at h
      cases before with
      | nil =>
        obtain ⟨rfl, rfl⟩ := List.cons.inj h
        cases k with
        | zero => rfl
        | succ k =>
          have hplace := @ih _ [] _ hfirst (Nat.le_of_succ_le_succ hk)
          rw [List.map_nil, List.sum_nil, Nat.zero_add] at hplace ⊢
          rw [placeAt, hplace, if_neg hc]
          rfl
      | cons b before =>
        obtain ⟨rfl, rfl⟩ := List.cons.inj h
        have hsum : (List.map (fun l : List Char => l.length + 1) ((c :: first) :: before)).sum + k =
            ((first :: before).map fun l => l.length + 1).sum + k + 1 := by
          simp only [List.map_cons, List.sum_cons, List.length_cons]
          omega
        have hplace := @ih _ (first :: before) _ hfirst hk
        rw [hsum, placeAt, hplace, if_neg hc, if_neg (by simp)]
        rfl

/-- A text line by line around an offset: the lines in front of it, its own line in two parts, and
the lines behind. -/
structure Around (cs : List Char) (offset : Nat) (before : List (List Char))
    (left right : List Char) (after : List (List Char)) : Prop where
  lines_eq : lines cs = before ++ (left ++ right) :: after
  offset_eq : offset = (before.map fun l => l.length + 1).sum + left.length
  rest_eq : cs.drop offset = ['\n'].intercalate (right :: after)

theorem exists_around {cs : List Char} {offset : Nat} (h : offset ≤ cs.length) :
    ∃ before left right after, Around cs offset before left right after := by
  induction cs generalizing offset with
  | nil =>
    obtain rfl : offset = 0 := Nat.le_zero.1 h
    exact ⟨[], [], [], [], rfl, rfl, rfl⟩
  | cons c cs ih =>
    cases offset with
    | zero =>
      obtain ⟨l, ls, hl⟩ := List.exists_cons_of_ne_nil (lines_ne_nil (c :: cs))
      refine ⟨[], [], l, ls, hl, rfl, ?_⟩
      rw [← hl, intercalate_lines, List.drop_zero]
    | succ offset =>
      obtain ⟨before, left, right, after, hlines, hoffset, hrest⟩ :=
        ih (Nat.le_of_succ_le_succ h)
      by_cases hc : c = '\n'
      · subst hc
        refine ⟨[] :: before, left, right, after, ?_, ?_, hrest⟩
        · rw [lines_newline, hlines, List.cons_append]
        · simp only [List.map_cons, List.sum_cons, List.length_nil]
          omega
      · obtain ⟨l, ls, hl, hcons⟩ := lines_cons_of_ne hc cs
        rw [hlines] at hl
        -- The character joins the part of the line in front of the offset, or an earlier line.
        cases before with
        | nil =>
          obtain ⟨rfl, rfl⟩ := List.cons.inj hl
          refine ⟨[], c :: left, right, after, hcons, ?_, hrest⟩
          simp only [List.map_nil, List.sum_nil, List.length_cons] at hoffset ⊢
          omega
        | cons b before =>
          obtain ⟨rfl, rfl⟩ := List.cons.inj hl
          refine ⟨(c :: b) :: before, left, right, after, hcons, ?_, hrest⟩
          simp only [List.map_cons, List.sum_cons, List.length_cons] at hoffset ⊢
          omega

namespace Around

variable {cs : List Char} {offset : Nat} {before after : List (List Char)} {left right : List Char}

theorem place_eq (h : Around cs offset before left right after) :
    placeAt cs offset = ⟨before.length + 1, left.length + 1⟩ := by
  rw [h.offset_eq]
  refine placeAt_of_lines h.lines_eq ?_
  rw [List.length_append]
  exact Nat.le_add_right _ _

theorem lineIn_eq (h : Around cs offset before left right after) :
    (placeAt cs offset).lineIn cs = left ++ right := by
  rw [Place.lineIn, h.place_eq, h.lines_eq]
  simp

theorem take_lines (h : Around cs offset before left right after) :
    (lines cs).take ((placeAt cs offset).line - 1) = before := by
  rw [h.place_eq, h.lines_eq]
  simp

end Around

/-- **Each offset of a text is at a place of it.** -/
theorem placeAt_isIn {cs : List Char} {offset : Nat} (h : offset ≤ cs.length) :
    (placeAt cs offset).IsIn cs := by
  obtain ⟨before, left, right, after, haround⟩ := exists_around h
  refine ⟨?_, ?_, ?_, ?_⟩
  · rw [haround.place_eq]
    exact Nat.succ_pos _
  · rw [haround.place_eq, haround.lines_eq, List.length_append, List.length_cons]
    dsimp only
    omega
  · rw [haround.place_eq]
    exact Nat.succ_pos _
  · rw [haround.lineIn_eq, haround.place_eq, List.length_append]
    dsimp only
    omega

/-- The place of an offset has that offset. -/
theorem offset_placeAt {cs : List Char} {offset : Nat} (h : offset ≤ cs.length) :
    (placeAt cs offset).offset cs = offset := by
  obtain ⟨before, left, right, after, haround⟩ := exists_around h
  rw [Place.offset, haround.take_lines, haround.place_eq, Nat.add_sub_cancel]
  exact haround.offset_eq.symm

/-- The offset of a place is at that place. -/
theorem placeAt_offset {cs : List Char} {p : Place} (h : p.IsIn cs) :
    placeAt cs (p.offset cs) = p := by
  obtain ⟨line, column⟩ := p
  obtain ⟨line, rfl⟩ : ∃ n, line = n + 1 := Nat.exists_eq_add_one.2 h.line_pos
  obtain ⟨column, rfl⟩ : ∃ n, column = n + 1 := Nat.exists_eq_add_one.2 h.column_pos
  have hline : line < (lines cs).length := h.line_le
  have hcolumn := h.column_le
  rw [Place.lineIn, Nat.add_sub_cancel, List.getD_eq_getElem?_getD,
    List.getElem?_eq_getElem hline, Option.getD_some] at hcolumn
  have hsplit : lines cs = (lines cs).take line ++ (lines cs)[line] :: (lines cs).drop (line + 1) := by
    rw [List.getElem_cons_drop, List.take_append_drop]
  rw [Place.offset, Nat.add_sub_cancel, Nat.add_sub_cancel,
    placeAt_of_lines hsplit (Nat.le_of_succ_le_succ hcolumn), List.length_take,
    Nat.min_eq_left (Nat.le_of_lt hline)]

/-- At the place of an offset stands the character there, if it is no line feed. -/
theorem getElem?_placeAt {cs : List Char} {offset : Nat} {c : Char} (h : cs[offset]? = some c)
    (hc : c ≠ '\n') :
    ((placeAt cs offset).lineIn cs)[(placeAt cs offset).column - 1]? = some c := by
  obtain ⟨hlt, -⟩ := List.getElem?_eq_some_iff.1 h
  obtain ⟨before, left, right, after, haround⟩ := exists_around (Nat.le_of_lt hlt)
  rw [haround.lineIn_eq, haround.place_eq, Nat.add_sub_cancel,
    List.getElem?_append_right (Nat.le_refl _), Nat.sub_self]
  have hhead : (['\n'].intercalate (right :: after)).head? = some c := by
    rw [← haround.rest_eq, List.head?_drop, h]
  cases right with
  | nil =>
    cases after with
    | nil => cases hhead
    | cons l after =>
      rw [List.intercalate_cons_cons] at hhead
      cases hhead
      exact absurd rfl hc
  | cons r right =>
    cases after with
    | nil => simpa using hhead
    | cons l after => simpa [List.intercalate_cons_cons] using hhead

end Calx.Text
