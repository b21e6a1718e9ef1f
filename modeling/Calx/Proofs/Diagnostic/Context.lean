import Mathlib.Data.List.Basic
import Calx.Diagnostic.Basic
import Calx.Proofs.Text.Place

/-!
# The context of a place

The context of a place is the lines around it in order, with a caret line behind the line of the
place (`contextLines_eq_window`); printed, it has just these lines (`lines_contextBlock`).

A line is shown behind a label with its number, and the caret line starts with as many spaces as the
label of a number of four digits is wide. So the caret stands under its place as long as the number
of the line has no more digits than that (`caretAt_shownColumn_iff`).
-/

namespace Calx.Diagnostic

open Text

/-! ## Lines with their numbers -/

/-- The line of a text with a number from 1, as it is shown. -/
def shownLine (cs : List Char) (number : Nat) : String :=
  numberedLine (number - 1) ((lines cs).getD (number - 1) [])

/-- The lines of a text from one number to another, as they are shown. -/
def shownLines (cs : List Char) (first last : Nat) : List String :=
  (List.range' first (last + 1 - first)).map (shownLine cs)

theorem shownLines_concat {cs : List Char} {first last : Nat} (h : first ≤ last) :
    shownLines cs first last =
      (List.range' first (last - first)).map (shownLine cs) ++ [shownLine cs last] := by
  have hcount : last + 1 - first = last - first + 1 := by omega
  rw [shownLines, hcount, List.range'_1_concat, Nat.add_sub_of_le h, List.map_append]
  rfl

/-- The lines around a place as they are shown, with the caret line behind its own. -/
def window (cs : List Char) (p : Place) (radius : Nat) : List String :=
  shownLines cs (max 1 (p.line - radius)) p.line ++ caretLine p.column ::
    shownLines cs (p.line + 1) (min (lines cs).length (p.line + radius))

theorem zipIdx_eq_map_range' {α : Type} (l : List α) (default : α) :
    l.zipIdx = (List.range' 1 l.length).map fun n => (l.getD (n - 1) default, n - 1) := by
  refine List.ext_getElem (by simp) fun i hi _ => ?_
  rw [List.length_zipIdx] at hi
  simp [hi]

/-- What the context shows for the line with a number. -/
def contextOf (cs : List Char) (p : Place) (radius number : Nat) : List String :=
  if p.line ≤ number + radius ∧ number ≤ p.line + radius then
    shownLine cs number :: (if number = p.line then [caretLine p.column] else [])
  else []

theorem contextLines_eq_flatMap (cs : List Char) (p : Place) (radius : Nat) :
    contextLines cs p.line p.column radius =
      (List.range' 1 (lines cs).length).flatMap (contextOf cs p radius) := by
  rw [contextLines, zipIdx_eq_map_range' (lines cs) [], List.flatMap_map]
  refine List.flatMap_congr fun n hn => ?_
  have hpos : 1 ≤ n := (List.mem_range'_1.1 hn).1
  have hnumber : (((n - 1 : Nat) : Int) + 1) = n := by omega
  have hiff : ((p.line : Int) - radius ≤ n ∧ (n : Int) ≤ p.line + radius) ↔
      (p.line ≤ n + radius ∧ n ≤ p.line + radius) := by omega
  simp only [hnumber, hiff, Int.natCast_inj, contextOf, shownLine]

/-- Further away from the place than the radius nothing is shown. -/
theorem flatMap_contextOf_eq_nil {cs : List Char} {p : Place} {radius first count : Nat}
    (h : ∀ n, first ≤ n → n < first + count → n + radius < p.line ∨ p.line + radius < n) :
    (List.range' first count).flatMap (contextOf cs p radius) = [] := by
  rw [List.flatMap_eq_nil_iff]
  intro n hn
  have hbounds := List.mem_range'_1.1 hn
  have hfar := h n hbounds.1 hbounds.2
  exact if_neg (by omega)

/-- Other lines than the one of the place, within the radius, are shown as they are. -/
theorem flatMap_contextOf_eq_map {cs : List Char} {p : Place} {radius first count : Nat}
    (h : ∀ n, first ≤ n → n < first + count →
      n ≠ p.line ∧ p.line ≤ n + radius ∧ n ≤ p.line + radius) :
    (List.range' first count).flatMap (contextOf cs p radius) =
      (List.range' first count).map (shownLine cs) := by
  rw [List.map_eq_flatMap]
  refine List.flatMap_congr fun n hn => ?_
  have hbounds := List.mem_range'_1.1 hn
  obtain ⟨hne, hnear⟩ := h n hbounds.1 hbounds.2
  rw [contextOf, if_pos hnear, if_neg hne]

/-- The numbers up to a length, with those around `line` apart. -/
theorem range'_around {first line last length : Nat} (hfirst : 1 ≤ first) (hline : first ≤ line)
    (hlast : line ≤ last) (hlength : last ≤ length) :
    List.range' 1 length = List.range' 1 (first - 1) ++ (List.range' first (line - first) ++ (line ::
      (List.range' (line + 1) (last - line) ++ List.range' (last + 1) (length - last)))) := by
  have hlen : length = first - 1 + (line - first + (last - line + (length - last) + 1)) := by omega
  have hstarts : 1 + (first - 1) = first ∧ first + (line - first) = line ∧
      line + 1 + (last - line) = last + 1 := by omega
  conv_lhs => rw [hlen]
  rw [← List.range'_append_1, ← List.range'_append_1, List.range'_succ, ← List.range'_append_1,
    hstarts.1, hstarts.2.1, hstarts.2.2]

/-- **The context of a place is the lines around it.** -/
theorem contextLines_eq_window {cs : List Char} {p : Place} (h : p.IsIn cs) (radius : Nat) :
    contextLines cs p.line p.column radius = window cs p radius := by
  obtain ⟨hpos, hle, -, -⟩ := h
  rw [contextLines_eq_flatMap, window]
  generalize hfirst : max 1 (p.line - radius) = first
  generalize hlast : min (lines cs).length (p.line + radius) = last
  -- The lines left out in front, those in front, the line itself, those behind, those left out behind.
  have hskipped : (List.range' 1 (first - 1)).flatMap (contextOf cs p radius) = [] :=
    flatMap_contextOf_eq_nil fun n _ _ => by omega
  have hbefore : (List.range' first (p.line - first)).flatMap (contextOf cs p radius) =
      (List.range' first (p.line - first)).map (shownLine cs) :=
    flatMap_contextOf_eq_map fun n _ _ => by omega
  have hown : contextOf cs p radius p.line = [shownLine cs p.line, caretLine p.column] := by
    rw [contextOf, if_pos (by omega), if_pos rfl]
  have hbehind : (List.range' (p.line + 1) (last - p.line)).flatMap (contextOf cs p radius) =
      (List.range' (p.line + 1) (last - p.line)).map (shownLine cs) :=
    flatMap_contextOf_eq_map fun n _ _ => by omega
  have hrest : (List.range' (last + 1) ((lines cs).length - last)).flatMap
      (contextOf cs p radius) = [] :=
    flatMap_contextOf_eq_nil fun n _ _ => by omega
  have hfirst : first ≤ p.line := by omega
  have hparts := range'_around (by omega : 1 ≤ first) hfirst (by omega : p.line ≤ last)
    (by omega : last ≤ (lines cs).length)
  rw [hparts, List.flatMap_append, List.flatMap_append, List.flatMap_cons, List.flatMap_append,
    hskipped, hbefore, hown, hbehind, hrest, shownLines_concat hfirst, shownLines,
    Nat.add_sub_add_right]
  simp

/-! ## The printed context -/

theorem toList_pushn (s : String) (c : Char) (n : Nat) :
    (s.pushn c n).toList = s.toList ++ List.replicate n c := by
  rw [String.pushn_eq_repeat_push]
  induction n with
  | zero => simp [Nat.repeat]
  | succ n ih =>
    rw [Nat.repeat, String.toList_push, ih, List.append_assoc, List.replicate_succ']

/-- The label of a line: its number, a colon and a space. -/
def label (number : Nat) : List Char :=
  (padLeft numberWidth (toString number)).toList ++ [':', ' ']

/-- How many digits a number has. -/
theorem length_toString (n : Nat) : (toString n).length = (Nat.toDigits 10 n).length := by
  rw [Nat.toString_eq_repr, Nat.repr_eq_ofList_toDigits, String.length_ofList]

theorem toList_padLeft (width : Nat) (s : String) :
    (padLeft width s).toList = List.replicate (width - s.length) ' ' ++ s.toList := by
  rw [padLeft, String.toList_append, toList_pushn]
  rfl

/-- A number in a label stands on the right of four columns, or takes as many as it needs. -/
theorem label_eq (number : Nat) :
    label number = List.replicate (4 - (Nat.toDigits 10 number).length) ' ' ++
      Nat.toDigits 10 number ++ [':', ' '] := by
  rw [label, toList_padLeft, length_toString, Nat.toString_eq_repr, Nat.repr_eq_ofList_toDigits,
    String.toList_ofList]
  rfl

theorem length_label (number : Nat) :
    (label number).length = max numberWidth (Nat.toDigits 10 number).length + 2 := by
  rw [label_eq, List.length_append, List.length_append, List.length_replicate]
  simp only [List.length_cons, List.length_nil, numberWidth]
  omega

/-- The label of a number takes the width that is kept for it as long as its digits do. -/
theorem length_label_eq_iff (number : Nat) :
    (label number).length = numberWidth + 2 ↔ number < 10000 := by
  have hdigits : (Nat.toDigits 10 number).length ≤ 4 ↔ number < 10000 :=
    Nat.length_toDigits_le_iff (by decide) (by decide)
  rw [length_label, ← hdigits]
  simp only [numberWidth]
  omega

theorem toList_shownLine {cs : List Char} {number : Nat} (h : 1 ≤ number) :
    (shownLine cs number).toList = label number ++ (lines cs).getD (number - 1) [] := by
  rw [shownLine, numberedLine, Nat.sub_add_cancel h, label]
  simp

theorem toList_caretLine (column : Nat) :
    (caretLine column).toList = List.replicate (numberWidth + 2 + (column - 1)) ' ' ++ ['^'] := by
  have hcolumn : ((column : Int) - 1).toNat = column - 1 := by omega
  rw [caretLine, hcolumn, String.toList_append, toList_pushn]
  rfl

theorem not_mem_label (number : Nat) : '\n' ∉ label number := by
  rw [label_eq]
  simp only [List.mem_append, List.mem_replicate, not_or]
  refine ⟨⟨fun h => absurd h.2 (by decide), fun h => ?_⟩, by decide⟩
  exact absurd (Nat.isDigit_of_mem_toDigits (by decide) (by decide) h) (by decide)

theorem not_mem_shownLine {cs : List Char} {number : Nat} (h : 1 ≤ number) :
    '\n' ∉ (shownLine cs number).toList := by
  rw [toList_shownLine h, List.mem_append, not_or]
  refine ⟨not_mem_label number, ?_⟩
  rw [List.getD_eq_getElem?_getD]
  cases hline : (lines cs)[number - 1]? with
  | none => simp
  | some l => exact not_mem_of_mem_lines (List.mem_of_getElem? hline)

theorem not_mem_window {cs : List Char} {p : Place} {radius : Nat} {s : String}
    (h : s ∈ window cs p radius) : '\n' ∉ s.toList := by
  have hshown {first last : Nat} (hfirst : 1 ≤ first) (hs : s ∈ shownLines cs first last) :
      '\n' ∉ s.toList := by
    obtain ⟨n, hn, rfl⟩ := List.mem_map.1 hs
    exact not_mem_shownLine (Nat.le_trans hfirst (List.mem_range'_1.1 hn).1)
  rcases List.mem_append.1 h with h | h
  · exact hshown (Nat.le_max_left _ _) h
  · rcases List.mem_cons.1 h with rfl | h
    · rw [toList_caretLine]
      simp [List.mem_replicate]
    · exact hshown (Nat.le_add_left _ _) h

/-- **The printed context has the lines around the place, and no others.** -/
theorem lines_contextBlock {cs : List Char} {p : Place} (h : p.IsIn cs) (radius : Nat) :
    lines (contextBlock cs p.line p.column radius).toList =
      (window cs p radius).map String.toList := by
  have hnewline : "\n".toList = ['\n'] := rfl
  rw [contextBlock, contextLines_eq_window h, String.toList_intercalate, hnewline]
  refine lines_intercalate (by simp [window]) fun l hl => ?_
  obtain ⟨s, hs, rfl⟩ := List.mem_map.1 hl
  exact not_mem_window hs

/-- The characters of the lines around a place. -/
theorem map_toList_window {cs : List Char} {p : Place} (radius : Nat)
    {shown : Nat → List Char}
    (hshown : ∀ number, 1 ≤ number → shown number = (shownLine cs number).toList) :
    (window cs p radius).map String.toList =
      (List.range' (max 1 (p.line - radius)) (p.line + 1 - max 1 (p.line - radius))).map shown ++
        (List.replicate (numberWidth + 2 + (p.column - 1)) ' ' ++ ['^']) ::
        (List.range' (p.line + 1) (min (lines cs).length (p.line + radius) - p.line)).map shown := by
  have hlines {first count : Nat} (hfirst : 1 ≤ first) :
      ((List.range' first count).map (shownLine cs)).map String.toList =
        (List.range' first count).map shown := by
    rw [List.map_map]
    refine List.map_congr_left fun n hn => ?_
    exact (hshown n (Nat.le_trans hfirst (List.mem_range'_1.1 hn).1)).symm
  rw [window, List.map_append, List.map_cons, toList_caretLine, shownLines, shownLines,
    hlines (Nat.le_max_left _ _), hlines (Nat.le_add_left _ _), Nat.add_sub_add_right]

/-! ## The caret -/

/-- The column, from 0, in which the line of a place is shown with the character at the place. -/
def shownColumn (p : Place) : Nat :=
  (label p.line).length + (p.column - 1)

/-- The caret of a diagnostic for a place, on the line right behind the one that shows the line of the
place, stands in a column counted from 0. -/
def CaretAt (d : Diagnostic) (cs : List Char) (p : Place) (column : Nat) : Prop :=
  d.line = p.line ∧ d.column = p.column ∧ ∃ block before behind, d.context = some block ∧
    lines block.toList = before ++ (label p.line ++ p.lineIn cs) ::
      (List.replicate column ' ' ++ ['^']) :: behind

/-- The line of a place is shown with the character at the place. -/
theorem getElem?_shownColumn {cs : List Char} {p : Place} {c : Char}
    (h : (p.lineIn cs)[p.column - 1]? = some c) :
    (label p.line ++ p.lineIn cs)[shownColumn p]? = some c := by
  rw [shownColumn, List.getElem?_append_right (Nat.le_add_right _ _), Nat.add_sub_cancel_left, h]

/-- The caret is left behind by each digit of the number that its label is too narrow for. -/
theorem shownColumn_eq (p : Place) : shownColumn p =
    numberWidth + 2 + (p.column - 1) + ((Nat.toDigits 10 p.line).length - numberWidth) := by
  rw [shownColumn, length_label]
  omega

/-- A line of spaces and a caret is no line of the text. -/
theorem eq_of_mem_window {cs : List Char} {p : Place} {radius column : Nat} {s : String}
    (h : s ∈ window cs p radius) (hs : s.toList = List.replicate column ' ' ++ ['^']) :
    column = numberWidth + 2 + (p.column - 1) := by
  have hcolon : ':' ∉ s.toList := by
    rw [hs]
    simp [List.mem_replicate]
  have hshown {first last : Nat} (hfirst : 1 ≤ first) : s ∉ shownLines cs first last := by
    intro hmem
    obtain ⟨n, hn, rfl⟩ := List.mem_map.1 hmem
    rw [toList_shownLine (Nat.le_trans hfirst (List.mem_range'_1.1 hn).1), label] at hcolon
    simp at hcolon
  rcases List.mem_append.1 h with h | h
  · exact absurd h (hshown (Nat.le_max_left _ _))
  · rcases List.mem_cons.1 h with rfl | h
    · rw [toList_caretLine] at hs
      simpa using (congrArg List.length hs).symm
    · exact absurd h (hshown (Nat.le_add_left _ _))

theorem window_eq {cs : List Char} {p : Place} (h : p.IsIn cs) (radius : Nat) :
    ∃ before behind, window cs p radius =
      before ++ shownLine cs p.line :: caretLine p.column :: behind := by
  have hpos := h.line_pos
  rw [window, shownLines_concat (by omega), List.append_assoc]
  exact ⟨_, _, rfl⟩

section Build

variable {cs : List Char} {location : Nat} (h : location ≤ cs.length) (expected : String)
  (closes : Bool)

include h

theorem lines_context_build : ∃ block, (build cs location expected closes).context = some block ∧
    lines block.toList = (window cs (placeAt cs location) 2).map String.toList :=
  ⟨_, rfl, lines_contextBlock (placeAt_isIn h) 2⟩

/-- **Where the caret stands.** -/
theorem caretAt_build_iff (column : Nat) :
    CaretAt (build cs location expected closes) cs (placeAt cs location) column ↔
      column = numberWidth + 2 + ((placeAt cs location).column - 1) := by
  obtain ⟨block, hblock, hlines⟩ := lines_context_build h expected closes
  constructor
  · rintro ⟨-, -, block', before, behind, hblock', hlines'⟩
    obtain rfl : block = block' := Option.some.inj (hblock.symm.trans hblock')
    have hmem : List.replicate column ' ' ++ ['^'] ∈
        (window cs (placeAt cs location) 2).map String.toList := by
      rw [← hlines, hlines']
      simp
    obtain ⟨s, hs, heq⟩ := List.mem_map.1 hmem
    exact eq_of_mem_window hs heq
  · rintro rfl
    obtain ⟨before, behind, hwindow⟩ := window_eq (placeAt_isIn h) 2
    refine ⟨rfl, rfl, block, before.map String.toList, behind.map String.toList, hblock, ?_⟩
    rw [hlines, hwindow, List.map_append, List.map_cons, List.map_cons, toList_caretLine,
      toList_shownLine (placeAt_isIn h).line_pos]
    rfl

/-- The caret stands under the character of the place as long as the number of the line fits its
label. -/
theorem caretAt_shownColumn_iff :
    CaretAt (build cs location expected closes) cs (placeAt cs location)
      (shownColumn (placeAt cs location)) ↔ (placeAt cs location).line < 10000 := by
  rw [caretAt_build_iff h, ← length_label_eq_iff, shownColumn]
  omega

end Build

end Calx.Diagnostic
