import Calx.Proofs.Diagnostic.Context
import Calx.Proofs.Grammar.Text
import Calx.Proofs.Token.Join
import Calx.Proofs.Token.Spans

/-!
# Where a text is blamed

Whatever rule a text is read by, it is blamed on an offset in it, in front of a character that is not
layout, or on its end (`exists_location`). For programs and expressions, the line and the column of
the diagnostic are the place of that offset, and its context is the lines around it
(`place_of_unfit`). The caret in the context stands under the character at the offset up to the last
line number that four digits can write, and not behind that one (`caret_of_unfit`).
-/

namespace Calx

open Text Diagnostic Rule

/-- A text is blamed on an offset in it. -/
theorem exists_location {α : Type} {rule : Rule α} {text : String} {d : Diagnostic}
    (h : rule.read text = .error (.unfit d)) :
    ∃ location e, d = .ofExpectation text.toList location e ∧ location ≤ text.toList.length ∧
      (location < text.toList.length →
        ∃ c, text.toList[location]? = some c ∧ isLayout c = false) := by
  obtain ⟨rest, e, -, rfl⟩ := read_eq_unfit_iff.1 h
  exact ⟨_, e, rfl, Stream.placeOf_le text _, Stream.not_layout_of_placeOf_lt⟩

/-- The text is not read, as a program or as an expression, because of what the diagnostic tells. -/
def IsUnfit (depth : Nat) (text : String) (d : Diagnostic) : Prop :=
  Program.ofText depth text = .error (.unfit d) ∨ Expr.ofText depth text = .error (.unfit d)

section Unfit

variable {depth : Nat} {text : String} {d : Diagnostic}

theorem IsUnfit.exists_location (h : IsUnfit depth text d) :
    ∃ location e, d = .ofExpectation text.toList location e ∧ location ≤ text.toList.length ∧
      (location < text.toList.length →
        ∃ c, text.toList[location]? = some c ∧ isLayout c = false) :=
  h.elim Calx.exists_location Calx.exists_location

/-- **A diagnostic describes one place of the text.** Its line and its column are a place of the text,
the only one at its location. Its context has the lines up to two lines away from that place, in
order, each with the digits of its number, on the right of four columns, a colon and a space in
front of its own text; and behind the line of the place spaces and a caret. -/
theorem place_of_unfit (h : IsUnfit depth text d) :
    ∃ p : Place, d.line = p.line ∧ d.column = p.column ∧ p.IsIn text.toList ∧
      d.location = p.offset text.toList ∧
      (∀ q : Place, q.IsIn text.toList → q.offset text.toList = p.offset text.toList → q = p) ∧
      ∃ block, d.context = some block ∧
        let shown (number : Nat) : List Char :=
          List.replicate (4 - (Nat.toDigits 10 number).length) ' ' ++ Nat.toDigits 10 number ++
            [':', ' '] ++ (lines text.toList).getD (number - 1) []
        let first := max 1 (p.line - 2)
        let last := min (lines text.toList).length (p.line + 2)
        lines block.toList = (List.range' first (p.line + 1 - first)).map shown ++
          (List.replicate (4 + 2 + (p.column - 1)) ' ' ++ ['^']) ::
          (List.range' (p.line + 1) (last - p.line)).map shown := by
  obtain ⟨location, e, rfl, hle, -⟩ := h.exists_location
  refine ⟨placeAt text.toList location, rfl, rfl, placeAt_isIn hle, ?_, fun q hq heq => ?_, ?_⟩
  · rw [offset_placeAt hle]
    rfl
  · rw [offset_placeAt hle] at heq
    rw [← placeAt_offset hq, heq]
  · obtain ⟨block, hblock, hlines⟩ := lines_context_build hle e.display e.closes
    refine ⟨block, hblock, hlines.trans (map_toList_window 2 fun number hnumber => ?_)⟩
    rw [toList_shownLine hnumber, label_eq]

/-- An open parenthesis is blamed on the end of the text, which is on a line of its own here. -/
theorem place_of_open_parenthesis :
    IsUnfit 9 "(x\t\r\n" (.ofExpectation "(x\t\r\n".toList 5 (.token .closeParen)) ∧
    ∃ p : Place, p = ⟨2, 1⟩ ∧ p.IsIn "(x\t\r\n".toList ∧ p.offset "(x\t\r\n".toList = 5 := by
  have hmisfits : Grammar.wholeExpression (Grammar.expression 9) (Stream.ofText "(x\t\r\n").fault
      (Stream.ofText "(x\t\r\n").tokens = .misfits [] (.token .closeParen) := by cbv
  have hplace : (Stream.ofText "(x\t\r\n").placeOf ([] : List Token).length = 5 := by cbv
  have hunfit : IsUnfit 9 "(x\t\r\n" (.ofExpectation "(x\t\r\n".toList 5 (.token .closeParen)) :=
    .inr (read_eq_unfit_iff.2 ⟨_, _, hmisfits, by rw [hplace]⟩)
  obtain ⟨p, hline, hcolumn, hin, hlocation, -⟩ := place_of_unfit hunfit
  have hp : p = ⟨2, 1⟩ := by
    obtain ⟨line, column⟩ := p
    cases hline
    cases hcolumn
    rfl
  exact ⟨hunfit, p, hp, hin, (Int.ofNat.inj hlocation).symm⟩

/-- **Where the caret of a diagnostic stands.** A text that goes on where it is blamed does so with the
character that the context shows in the column `shownColumn`. The caret in the line behind has fewer
spaces in front of it by as many as the number of the line has digits beyond the fourth; so it stands
under that character exactly if there is no such digit. -/
theorem caret_of_unfit (h : IsUnfit depth text d) (hlt : d.location < text.length) :
    ∃ (location : Nat) (p : Place) (c : Char), d.location = location ∧
      text.toList[location]? = some c ∧ p.IsIn text.toList ∧ p.offset text.toList = location ∧
      (label p.line ++ p.lineIn text.toList)[shownColumn p]? = some c ∧
      (∀ column, CaretAt d text.toList p column ↔
        column + ((Nat.toDigits 10 p.line).length - numberWidth) = shownColumn p) ∧
      (CaretAt d text.toList p (shownColumn p) ↔ p.line < 10000) := by
  obtain ⟨location, e, rfl, hle, hchar⟩ := h.exists_location
  rw [String.length_toList] at hchar
  obtain ⟨c, hc, hlayout⟩ := hchar (Int.ofNat_lt.1 hlt)
  have hnewline : c ≠ '\n' := by
    rintro rfl
    cases hlayout
  refine ⟨location, placeAt text.toList location, c, rfl, hc, placeAt_isIn hle, offset_placeAt hle,
    getElem?_shownColumn (getElem?_placeAt hc hnewline), fun column => ?_,
    caretAt_shownColumn_iff hle e.display e.closes⟩
  rw [shownColumn_eq, Nat.add_right_cancel_iff]
  exact caretAt_build_iff hle e.display e.closes column

/-- A name behind a name, on the first line. -/
theorem caret_of_second_name :
    (Diagnostic.ofExpectation "x y".toList 2 .endOfText).location < "x y".length ∧
    IsUnfit 9 "x y" (.ofExpectation "x y".toList 2 .endOfText) ∧
    CaretAt (.ofExpectation "x y".toList 2 .endOfText) "x y".toList ⟨1, 3⟩ 8 := by
  have hmisfits : Grammar.program (Grammar.expression 9) (Stream.ofText "x y").fault
      (Stream.ofText "x y").tokens = .misfits [.identifier "y"] .endOfText := by cbv
  have hplace : (Stream.ofText "x y").placeOf [Token.identifier "y"].length = 2 := by cbv
  have hunfit : IsUnfit 9 "x y" (.ofExpectation "x y".toList 2 .endOfText) :=
    .inl (read_eq_unfit_iff.2 ⟨_, _, hmisfits, by rw [hplace]⟩)
  have hlt : (Diagnostic.ofExpectation "x y".toList 2 .endOfText).location < "x y".length := by
    decide
  obtain ⟨location, p, c, hlocation, -, hin, hoffset, -, hcaret, -⟩ := caret_of_unfit hunfit hlt
  have hp : p = ⟨1, 3⟩ := by
    rw [← placeAt_offset hin, hoffset, ← Int.ofNat.inj hlocation]
    rfl
  subst hp
  exact ⟨hlt, hunfit, (hcaret 8).2 (by decide)⟩

end Unfit

/-! ## A text of many lines -/

/-- Nothing but line feeds, and a parenthesis that closes nothing. -/
def farParenthesis (count : Nat) : String :=
  String.ofList (List.replicate count '\n' ++ [')'])

theorem length_farParenthesis (count : Nat) : (farParenthesis count).length = count + 1 := by
  rw [farParenthesis, String.length_ofList, List.length_append, List.length_replicate]
  rfl

theorem ofText_farParenthesis (count : Nat) :
    Stream.ofText (farParenthesis count) = ⟨[⟨count, .closeParen, count + 1⟩], count + 1, none⟩ := by
  have hlayout : ∀ c ∈ List.replicate count '\n', isLayout c = true := by
    intro c hc
    rw [List.eq_of_mem_replicate hc]
    rfl
  have hcut : Token.cut [')'] = .ok (some ⟨.closeParen, 1⟩) := rfl
  rw [Stream.ofText, farParenthesis, String.toList_ofList, Stream.ofChars_append_of_layout hlayout,
    Nat.zero_add, List.length_replicate, Stream.ofChars_cut rfl hcut, List.drop_succ_cons,
    List.drop_zero, Stream.ofChars_nil]
  rfl

/-- A parenthesis that closes nothing begins no statement. -/
theorem program_closeParen (depth : Nat) :
    Grammar.program (Grammar.expression (depth + 2)) none [.closeParen] =
      .misfits [.closeParen] .endOfText := by
  have hclear {kinds : List Token.Kind} (h : Token.Kind.closeParen ∉ kinds) :
      Clear kinds none [.closeParen] := h
  have hexpr : Refuses (Grammar.expression (depth + 2)) none [.closeParen] :=
    refuses_expression (hclear (by decide)) (Nat.lt_add_of_pos_left (Nat.succ_pos depth))
  have hstmt : Refuses (Grammar.statement (Grammar.expression (depth + 2))) none [.closeParen] :=
    refuses_statement (hclear (by decide)) hexpr
  have hlist : Refuses (separated .semicolon (Grammar.statement (Grammar.expression (depth + 2))))
      none [.closeParen] := hstmt.bind _
  rw [Grammar.program, bind_apply, hlist.optional_eq]
  rfl

theorem ofText_eq_unfit_farParenthesis (depth count : Nat) :
    Program.ofText (depth + 2) (farParenthesis count) =
      .error (.unfit (.ofExpectation (farParenthesis count).toList count .endOfText)) := by
  refine read_eq_unfit_iff.2 ⟨[.closeParen], .endOfText, ?_, ?_⟩
  · rw [ofText_farParenthesis]
    exact program_closeParen depth
  · rw [ofText_farParenthesis]
    rfl

theorem placeAt_farParenthesis (count : Nat) :
    placeAt (farParenthesis count).toList count = ⟨count + 1, 1⟩ := by
  rw [farParenthesis, String.toList_ofList]
  induction count with
  | zero => simp [placeAt]
  | succ count ih => rw [List.replicate_succ, List.cons_append, placeAt, ih, if_pos rfl]

/-- **From line 10000 on the caret does not stand under the error.** On that line the text is blamed
on a parenthesis that is shown in column 7, counted from 0, and the caret stands in column 6. -/
theorem caret_left_of_parenthesis :
    ∃ d, Program.ofText 250 (farParenthesis 9999) = .error (.unfit d) ∧
      d.location = (9999 : Nat) ∧ d.location < (farParenthesis 9999).length ∧
      shownColumn ⟨10000, 1⟩ = 7 ∧
      ¬CaretAt d (farParenthesis 9999).toList ⟨10000, 1⟩ (shownColumn ⟨10000, 1⟩) ∧
      CaretAt d (farParenthesis 9999).toList ⟨10000, 1⟩ 6 := by
  have hplace := placeAt_farParenthesis 9999
  have hle : 9999 ≤ (farParenthesis 9999).toList.length := by
    rw [String.length_toList, length_farParenthesis]
    decide
  have hcaret := caretAt_build_iff hle Expectation.endOfText.display Expectation.endOfText.closes
  have hshown := caretAt_shownColumn_iff hle Expectation.endOfText.display
    Expectation.endOfText.closes
  rw [hplace] at hcaret hshown
  refine ⟨_, ofText_eq_unfit_farParenthesis 248 9999, rfl, ?_, ?_, ?_, ?_⟩
  · rw [length_farParenthesis]
    decide
  · decide
  · exact fun h => absurd (hshown.1 h) (by decide)
  · exact (hcaret 6).2 rfl

end Calx
