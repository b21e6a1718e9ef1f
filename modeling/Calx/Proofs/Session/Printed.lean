import Calx.Console
import Calx.Proofs.Diagnostic.Found
import Calx.Proofs.Grammar.Reparse
import Calx.Proofs.Session.Quoted
import Calx.Proofs.Text.Place

/-!
# Printed programs, line by line

Whatever characters its texts hold, a readable tree is written on one line, and that line starts
neither blank nor as a command (`isLine_render`). So a program that is written has a line for each of
its statements, and each line is read by itself as the normal form of its statement (`render_lines`).
-/

namespace Calx

/-! ## Lines to be answered -/

namespace Text

/-- No line ends here. -/
def OneLine (cs : List Char) : Prop := ∀ c ∈ cs, c ≠ '\n' ∧ c ≠ '\r'

section OneLine

variable {c : Char} {cs ds : List Char}

@[simp] theorem oneLine_nil : OneLine [] := nofun

@[simp] theorem oneLine_cons : OneLine (c :: cs) ↔ (c ≠ '\n' ∧ c ≠ '\r') ∧ OneLine cs :=
  List.forall_mem_cons

@[simp] theorem oneLine_append : OneLine (cs ++ ds) ↔ OneLine cs ∧ OneLine ds :=
  List.forall_mem_append

theorem oneLine_of_isWordChar (h : ∀ c ∈ cs, Token.isWordChar c = true) : OneLine cs := by
  refine fun c hc => ⟨?_, ?_⟩
  · rintro rfl
    cases h _ hc
  · rintro rfl
    cases h _ hc

end OneLine

/-- A line that a console takes for a text: no line ends in it, and its first character is neither
blank nor that of a command. -/
structure IsLine (cs : List Char) : Prop where
  /-- No line ends in it. -/
  oneLine : OneLine cs
  /-- It starts with a character that is neither blank nor a colon. -/
  head : ∃ c rest, cs = c :: rest ∧ isBlank c = false ∧ c ≠ ':'

namespace IsLine

variable {c : Char} {cs ds : List Char}

theorem append (h : IsLine cs) (h' : OneLine ds) : IsLine (cs ++ ds) := by
  obtain ⟨honeLine, c, rest, rfl, hc⟩ := h
  exact ⟨oneLine_append.2 ⟨honeLine, h'⟩, c, rest ++ ds, rfl, hc⟩

theorem cons (hc : isBlank c = false ∧ c ≠ ':') (h : OneLine cs) : IsLine (c :: cs) := by
  refine ⟨oneLine_cons.2 ⟨⟨?_, ?_⟩, h⟩, c, cs, rfl, hc⟩
  · rintro rfl
    cases hc.1
  · rintro rfl
    cases hc.1

theorem of_isWordChar (hne : cs ≠ []) (h : ∀ c ∈ cs, Token.isWordChar c = true) : IsLine cs := by
  obtain ⟨c, cs, rfl⟩ := List.exists_cons_of_ne_nil hne
  rw [List.forall_mem_cons] at h
  refine .cons ⟨Token.not_blank_of_isWordChar h.1, ?_⟩ (oneLine_of_isWordChar h.2)
  rintro rfl
  cases h.1

/-- What is left of a line without the blank characters at its ends starts as the line does. -/
theorem trim_eq (h : IsLine cs) : ∃ c rest, trim cs = c :: rest ∧ c ≠ ':' := by
  obtain ⟨-, c, rest, rfl, hblank, hcolon⟩ := h
  refine ⟨c, (trim (c :: rest)).tail, ?_, hcolon⟩
  rw [trim, trimLeft_of_not_blank hblank, trimLeft, List.reverse_cons, List.dropWhile_append]
  split
  · rw [← trimLeft, trimLeft_of_not_blank hblank]
    rfl
  · rw [List.reverse_append]
    rfl

/-- A console does not take it for a command. -/
theorem lookup_eq_none (h : IsLine cs) :
    Console.commands.lookup (String.ofList (trim cs)) = none := by
  obtain ⟨c, rest, htrim, hcolon⟩ := h.trim_eq
  have hcommands : ∀ p ∈ Console.commands, p.1.toList.head? = some ':' := by decide
  refine List.lookup_eq_none_iff.2 fun p hp => ?_
  rw [bne_iff_ne, htrim]
  intro heq
  have hhead := hcommands p hp
  rw [← heq, String.toList_ofList] at hhead
  exact hcolon (Option.some.inj hhead)

end IsLine

end Text

open Text

/-! ## Written trees -/

theorem Number.Numeral.Canonical.isLine {n : Numeral} (h : n.Canonical) : IsLine n.text := by
  have hword {ds : List Char} (hds : AllDigits ds) : ∀ c ∈ ds, Token.isWordChar c = true :=
    fun c hc => Token.isWordChar_of_isDigit (hds c hc)
  have hfraction : OneLine (if n.fraction = [] then [] else '.' :: n.fraction) := by
    split
    · exact oneLine_nil
    · exact oneLine_cons.2 ⟨by decide, oneLine_of_isWordChar (hword h.fraction_digits)⟩
  have hexponent : OneLine (n.exponent.elim [] ExponentPart.text) := by
    cases he : n.exponent with
    | none => exact oneLine_nil
    | some e =>
      have hdigits := oneLine_of_isWordChar (hword (h.exponent_digits e he))
      cases hnegative : e.negative <;> simp [ExponentPart.text, hnegative, hdigits]
  exact ((IsLine.of_isWordChar h.whole_ne_nil (hword h.whole_digits)).append hfraction).append
    hexponent

theorem isLine_renderNumber {x : Float} (h : Number.IsMagnitude x) :
    IsLine (Expr.renderNumber x).toList := by
  obtain ⟨hrender, -⟩ | ⟨n, hrender, hcanonical, -⟩ := Expr.renderNumber_cases h
  · rw [hrender]
    exact .of_isWordChar (by decide) (List.all_eq_true.1 rfl)
  · rw [hrender]
    exact hcanonical.isLine

theorem isLine_quote (s : String) : IsLine (Quoted.quote s).toList := by
  refine ⟨fun c hc => ?_, '"', Quoted.quoteBody s.toList, String.toList_ofList, by decide⟩
  obtain ⟨hn, hr, -⟩ := Quoted.not_control_of_mem_quote hc
  exact ⟨hn, hr⟩

theorem IsName.isLine {n : String} (h : IsName n) : IsLine n.toList := by
  obtain ⟨c, cs, hn, hc, hcs⟩ := h.word
  rw [hn]
  exact .of_isWordChar (List.cons_ne_nil c cs)
    (List.forall_mem_cons.2 ⟨Token.isWordChar_of_isWordStart hc, hcs⟩)

mutual

/-- A readable expression is written on one line. -/
theorem isLine_render : (e : Expr) → e.Readable → IsLine e.render.toList
  | .number _, h => isLine_renderNumber h
  | .text s, _ => isLine_quote s
  | .var _, h => h.isLine
  | .negate e, h => by
    rw [Expr.render, String.toList_append]
    exact .cons (by decide) (isLine_render e h).oneLine
  | .binary op l r, ⟨hl, hr⟩ => by
    have hsymbol : OneLine op.symbol.toList := by cases op <;> simp [BinaryOperator.symbol]
    have hl := (isLine_render l hl).oneLine
    have hr := (isLine_render r hr).oneLine
    rw [Expr.toList_render_binary]
    exact .cons (by decide) (by simp [hl, hsymbol, hr])
  | .apply f args, ⟨hf, hargs⟩ => by
    have hinner : OneLine ([',', ' '].intercalate (args.map fun e => e.render.toList)) := by
      refine forall_mem_intercalate (by simp) fun cs hcs => ?_
      obtain ⟨e, he, rfl⟩ := List.mem_map.1 hcs
      exact oneLine_renderList args hargs e he
    rw [Expr.toList_render_apply]
    exact (isLine_render f hf).append (by simp [hinner])
  | .letIn n b e, ⟨hn, hb, he⟩ => by
    have hn := hn.isLine.oneLine
    have hb := (isLine_render b hb).oneLine
    have he := (isLine_render e he).oneLine
    rw [Expr.toList_render_letIn]
    exact .cons (by decide) (by simp [hn, hb, he])

theorem oneLine_renderList : (es : List Expr) → Expr.ReadableList es →
    ∀ e ∈ es, OneLine e.render.toList
  | e :: _, ⟨he, _⟩, _, .head _ => (isLine_render e he).oneLine
  | _ :: es, ⟨_, hes⟩, e, .tail _ hmem => oneLine_renderList es hes e hmem

end

/-- A readable statement is written on one line. -/
theorem isLine_renderStmt {s : Stmt} (h : s.Readable) : IsLine s.render.toList := by
  cases s with
  | expr e =>
    rw [Stmt.render, String.toList_append]
    exact (isLine_render e h).append (by simp)
  | bind n e =>
    obtain ⟨hn, he⟩ := h
    have hn := hn.isLine.oneLine
    have he := (isLine_render e he).oneLine
    rw [Stmt.toList_render_bind]
    exact .cons (by decide) (by simp [hn, he])
  | define n ps e =>
    obtain ⟨hn, hps, he⟩ := h
    have hn := hn.isLine.oneLine
    have he := (isLine_render e he).oneLine
    have hparams : OneLine ([',', ' '].intercalate (ps.map String.toList)) := by
      refine forall_mem_intercalate (by simp) fun cs hcs => ?_
      obtain ⟨p, hp, rfl⟩ := List.mem_map.1 hcs
      exact (hps p hp).isLine.oneLine
    rw [Stmt.toList_render_define]
    exact .cons (by decide) (by simp [hn, hparams, he])

/-! ## Written programs -/

/-- The statement stands on the line by itself. -/
structure Stmt.StandsOn (s : Stmt) (line : List Char) : Prop where
  /-- The line alone is read as the normal form of the statement. -/
  ofText_eq : ∀ depth, line.length < depth →
    Program.ofText depth (String.ofList line) = .ok [s.norm]
  /-- The line is neither blank nor a command. -/
  isLine : IsLine line

theorem Stmt.Readable.standsOn {s : Stmt} (h : s.Readable) : s.StandsOn s.render.toList := by
  refine ⟨fun depth hdepth => ?_, isLine_renderStmt h⟩
  have hread : Program.Readable [s] := List.forall_mem_singleton.2 h
  have hrender : Program.render [s] = s.render := String.intercalate_singleton
  rw [String.ofList_toList, ← hrender]
  refine ofText_render_of_readable hread ?_
  rwa [hrender, ← String.length_toList]

theorem lines_render {p : Program} (h : p.Readable) (hne : p ≠ []) :
    lines p.render.toList = p.map fun s => s.render.toList := by
  rw [Program.toList_render]
  refine lines_intercalate (by simpa using hne) fun l hl => ?_
  obtain ⟨s, hs, rfl⟩ := List.mem_map.1 hl
  exact fun hmem => ((isLine_renderStmt (h s hs)).oneLine _ hmem).1 rfl

/-- No carriage return is written. -/
theorem not_mem_render {p : Program} (h : p.Readable) : '\r' ∉ p.render.toList := by
  have hne : ∀ c ∈ p.render.toList, c ≠ '\r' := by
    rw [Program.toList_render]
    refine forall_mem_intercalate (by simp) fun l hl c hc => ?_
    obtain ⟨s, hs, rfl⟩ := List.mem_map.1 hl
    exact ((isLine_renderStmt (h s hs)).oneLine c hc).2
  exact fun hmem => hne _ hmem rfl

/-- **A written program has a line for each statement.** What is written for a program that was read
from a text holds no carriage return, so a reader that unifies line ends leaves it alone. It has as
many lines as the program has statements, and each of them, read by itself, is the normal form of its
statement. No line is blank, and a console takes none of them for a command. -/
theorem lines_stand_alone {depth : Nat} {text : String} {p : Program}
    (h : Program.ofText depth text = .ok p) (hne : p ≠ []) :
    '\r' ∉ p.render.toList ∧
    unifyLineEnds p.render.toList = p.render.toList ∧
    inputLines (p.render.toList ++ ['\n']) = lines p.render.toList ∧
    (lines p.render.toList).length = p.length ∧
    (∀ (i : Nat) (line : List Char) (s : Stmt), (lines p.render.toList)[i]? = some line →
      p[i]? = some s → s.StandsOn line) ∧
    ∀ line ∈ lines p.render.toList,
      trim line ≠ [] ∧ Console.commands.lookup (String.ofList (trim line)) = none := by
  have hp := readable_of_ofText h
  have hlines := lines_render hp hne
  refine ⟨not_mem_render hp, unifyLineEnds_of_not_mem (not_mem_render hp),
    inputLines_concat_newline _, ?_, fun i line s hline hs => ?_, fun line hline => ?_⟩
  · rw [hlines, List.length_map]
  · rw [hlines, List.getElem?_map, hs] at hline
    cases hline
    exact (hp s (List.mem_of_getElem? hs)).standsOn
  · rw [hlines] at hline
    obtain ⟨s, hs, rfl⟩ := List.mem_map.1 hline
    have hisLine := isLine_renderStmt (hp s hs)
    obtain ⟨c, rest, htrim, -⟩ := hisLine.trim_eq
    exact ⟨by rw [htrim]; exact List.cons_ne_nil c rest, hisLine.lookup_eq_none⟩

/-- A line feed in a text does not end the line that the text is written on. -/
theorem standsOn_line_feed_in_text :
    Program.ofText 20 "y; (-f)(\"\n\")" =
      .ok [.expr (.var "y"), .expr (.apply (.negate (.var "f")) [.text "\n"])] ∧
    [Stmt.expr (.var "y"), .expr (.apply (.negate (.var "f")) [.text "\n"])] ≠ [] ∧
    Stmt.StandsOn (.expr (.apply (.negate (.var "f")) [.text "\n"])) "-f(\"\\n\");".toList := by
  have h : Program.ofText 20 "y; (-f)(\"\n\")" =
      .ok [.expr (.var "y"), .expr (.apply (.negate (.var "f")) [.text "\n"])] := by cbv
  have hne : [Stmt.expr (.var "y"), .expr (.apply (.negate (.var "f")) [.text "\n"])] ≠ [] :=
    List.cons_ne_nil _ _
  exact ⟨h, hne, (lines_stand_alone h hne).2.2.2.2.1 1 _ _ (by cbv) rfl⟩

end Calx
