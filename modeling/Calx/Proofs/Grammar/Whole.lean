import Calx.Proofs.Grammar.Join

/-!
# Expressions as programs

A text can be read as a program and as an expression. It is an expression exactly if it is the
program of that expression alone and no semicolon closes it (`isProgram_expr_iff`), and a text that
is abandoned as an expression is abandoned as a program too (`ofText_expr_iff_program`).

The two take different ways at a binding: the rule for statements reads one with or without a body,
the rule for expressions needs a body. They agree in all that the second one can read
(`sameBinding_statement`).
-/

namespace Calx

open Rule

/-! ## The two rules for a binding -/

/-- What the rule for statements and the rule for expressions make of the same binding. -/
inductive SameBinding : Outcome Stmt → Outcome Expr → Prop
  /-- With a body, both read the same expression. -/
  | body (name : String) (bound e : Expr) (rest : List Token) :
      SameBinding (.fits (.expr (.letIn name bound e)) rest) (.fits (.letIn name bound e) rest)
  /-- Where no body fits, it is a statement all the same. -/
  | alone (name : String) (bound : Expr) (rest rest' : List Token) (expected : Expectation) :
      SameBinding (.fits (.bind name bound) rest) (.misfits rest' expected)
  /-- A binding that neither can read does not fit at one place. -/
  | misfits (rest : List Token) (expected : Expectation) :
      SameBinding (.misfits rest expected) (.misfits rest expected)
  /-- Both abandon the text for the same reason. -/
  | abandoned (why : Abandonment) : SameBinding (.abandoned why) (.abandoned why)

/-- Where the rule for statements misfits, the rule for expressions does. -/
theorem SameBinding.eq_misfits {o : Outcome Expr} {rest : List Token} {expected : Expectation}
    (h : SameBinding (.misfits rest expected) o) : o = .misfits rest expected := by
  cases h
  rfl

theorem sameBinding_statement (operand nested : Rule Expr) (fault : Option LexError)
    (ts : List Token) :
    SameBinding (Grammar.statement nested fault (.letWord :: ts))
      (Grammar.expr operand nested fault (.letWord :: ts)) := by
  have hstmt : Grammar.statement nested fault (.letWord :: ts) =
      Grammar.letStatement nested fault (.letWord :: ts) := rfl
  have hexpr : Grammar.expr operand nested fault (.letWord :: ts) =
      (Grammar.binding nested >>= fun x => Grammar.inBody nested >>= fun e =>
        pure (Expr.letIn x.1 x.2 e)) fault (.letWord :: ts) := rfl
  rw [hstmt, hexpr, letStatement_eq, bind_apply, bind_apply]
  cases Grammar.binding nested fault (.letWord :: ts) with
  | misfits rest expected => exact .misfits rest expected
  | abandoned why => exact .abandoned why
  | fits x rest =>
    simp only [bind_apply, map_eq_bind, Rule.optional]
    cases Grammar.inBody nested fault rest with
    | fits e rest' => exact .body x.1 x.2 e rest'
    | misfits rest' expected => exact .alone x.1 x.2 rest rest' expected
    | abandoned why => exact .abandoned why

/-! ## Tokens -/

section Tokens

variable {ts rest : List Token} {e : Expr}

/-- An expression is a program of one statement that no semicolon closes. -/
theorem isProgram_expr_iff :
    IsProgram ts [.expr e] ∧ ts.getLast? ≠ some .semicolon ↔ IsExpr ts e := by
  constructor
  · rintro ⟨hp, hlast⟩
    cases hp with
    | closed => exact absurd (List.getLast?_concat ..) hlast
    | bare hs =>
      cases hs with
      | present hs =>
        cases hs with
        | one hs =>
          cases hs with
          | expr he => exact he
        | more _ hs => cases hs
  · intro he
    exact ⟨.bare (.present (.one (.expr he))), he.last.getLast?_ne (by decide)⟩

theorem reads_wholeExpression (depth : Nat) :
    Reads depth (Grammar.wholeExpression (Grammar.expression depth)) IsExpr := by
  refine ((reads_level depth).2.andThen fun e => (reads_finish depth).map fun _ => e).mono ?_
  rintro ts e ⟨us, e', vs, rfl, he, _, ⟨rfl, -⟩, rfl⟩
  simpa using he

/-- An expression is only read to the clean end of its tokens. -/
theorem end_of_wholeExpression {nested : Rule Expr} {fault : Option LexError}
    (h : Grammar.wholeExpression nested fault ts = .fits e rest) : fault = none ∧ rest = [] := by
  simp only [Grammar.wholeExpression, bind_apply] at h
  split at h <;> try cases h
  split at h <;> try cases h
  exact end_of_finish ‹_›

theorem wholeExpression_eq_of_isExpr {depth : Nat} (he : IsExpr ts e) (hlt : ts.length < depth) :
    Grammar.wholeExpression (Grammar.expression depth) none ts = .fits e [] := by
  have hfits := (takes_level depth).2 he (show Clear sumBlocked none [] from rfl)
    (by rwa [List.append_nil])
  rw [List.append_nil] at hfits
  rw [Grammar.wholeExpression, bind_apply, Grammar.expression, hfits]
  rfl

end Tokens

/-! ## Texts -/

section Texts

variable {depth : Nat} {text : String} {e : Expr}

theorem exprOfText_eq_ok_iff (hdepth : text.length < depth) : Expr.ofText depth text = .ok e ↔
    (Stream.ofText text).fault = none ∧ IsExpr (Stream.ofText text).tokens e := by
  constructor
  · intro h
    obtain ⟨rest, hfits⟩ := read_eq_ok_iff.1 h
    obtain ⟨hfault, rfl⟩ := end_of_wholeExpression hfits
    obtain ⟨us, hts, he⟩ := (reads_wholeExpression depth).sound hfits
    rw [List.append_nil] at hts
    exact ⟨hfault, hts ▸ he⟩
  · rintro ⟨hfault, he⟩
    have hlen := length_tokens_le text
    refine read_eq_ok_iff.2 ⟨[], ?_⟩
    rw [hfault]
    exact wholeExpression_eq_of_isExpr he (by omega)

/-- A text that needs a token as an expression, where none can be cut, needs it as a program. -/
theorem ofText_eq_lexical_of_expr {err : LexError} (hdepth : text.length < depth)
    (h : Expr.ofText depth text = .error (.lexical err)) :
    Program.ofText depth text = .error (.lexical err) := by
  have hlen := length_tokens_le text
  obtain ⟨hfault, us, e, hus, he⟩ := (reads_wholeExpression depth).viable (read_eq_lexical_iff.1 h)
  refine read_eq_lexical_iff.2 ?_
  rw [hfault]
  exact program_eq_lexical (by omega) hus (isProgram_expr_iff.2 he).1

/-- **A text is an expression exactly if it is the program of that expression,** and its last token
is no semicolon. A lexical error in it as an expression is one in it as a program. At every binding,
in whatever nesting, the rule for statements and the rule for expressions go together. -/
theorem ofText_expr_iff_program (hdepth : text.length < depth) :
    (∀ e, Expr.ofText depth text = .ok e ↔ Program.ofText depth text = .ok [.expr e] ∧
      (Stream.ofText text).tokens.getLast? ≠ some .semicolon) ∧
    (∀ err, Expr.ofText depth text = .error (.lexical err) →
      Program.ofText depth text = .error (.lexical err)) ∧
    ∀ level fault ts, SameBinding
      (Grammar.statement (Grammar.expression level) fault (.letWord :: ts))
      (Grammar.expression (level + 1) fault (.letWord :: ts)) := by
  refine ⟨fun e => ?_, fun err => ofText_eq_lexical_of_expr hdepth,
    fun level => sameBinding_statement (Grammar.level (level + 1)).unary (Grammar.expression level)⟩
  rw [exprOfText_eq_ok_iff hdepth, ofText_eq_ok_iff hdepth, ← isProgram_expr_iff]
  constructor
  · rintro ⟨hfault, hp, hlast⟩
    exact ⟨⟨_, tokens?_eq_ok_iff.2 ⟨hfault, rfl⟩, hp⟩, hlast⟩
  · rintro ⟨⟨ts, hts, hp⟩, hlast⟩
    obtain ⟨hfault, rfl⟩ := tokens?_eq_ok_iff.1 hts
    exact ⟨hfault, hp, hlast⟩

/-- A binding in the bound expression of another one. -/
theorem ofText_nested_binding :
    "let x = let y = a in b in c".length < 28 ∧
    Program.ofText 28 "let x = let y = a in b in c" =
      .ok [.expr (.letIn "x" (.letIn "y" (.var "a") (.var "b")) (.var "c"))] := by
  have hlt : "let x = let y = a in b in c".length < 28 := by decide
  exact ⟨hlt, (((ofText_expr_iff_program hlt).1 _).1 (by cbv)).1⟩

end Texts

end Calx
