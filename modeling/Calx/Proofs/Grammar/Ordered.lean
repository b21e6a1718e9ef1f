import Calx.Proofs.Grammar.Choice
import Calx.Proofs.Grammar.Whole

/-!
# The grammar with choices in order

    expr     := "let" IDENT "=" expr "in" expr / sum
    unary    := "-" unary / call
    primary  := NUMBER / STRING / IDENT / "(" expr ")"
    stmt     := "def" IDENT params "=" expr / "let" IDENT "=" expr ["in" expr] / expr

Here every choice tries its alternatives in order (`Rule.firstOf`); in `Calx.Grammar` the next token
chooses one. For expressions the two come to the same at every depth (`exprOfText_eq_read_ordered`).

In a program a second attempt may read tokens again: a `let` that is no statement is tried as an
expression, which misfits at the same place (`sameBinding_statement`). As it is tried one level
deeper, the text may be found nested too deep (`read_ordered_eq_tooDeep_or_eq`), but not with levels
enough for the text (`ofText_eq_read_ordered`).
-/

namespace Calx

namespace Grammar.Ordered

open Rule

/-- A number. -/
def number : Rule Expr :=
  next (.token .number) fun
    | .number x => some (.number x)
    | _ => none

/-- A string. -/
def string : Rule Expr :=
  next (.token .string) fun
    | .string s => some (.text s)
    | _ => none

/-- A primary expression. -/
def primary (nested : Rule Expr) : Rule Expr :=
  firstOf [number, string, Expr.var <$> identifier, parenthesized nested]

/-- A primary expression and the calls behind it. -/
def call (nested : Rule Expr) : Rule Expr := do
  let callee ← primary nested
  let calls ← many (arguments nested)
  return calls.foldl .apply callee

/-- A negation. -/
def negation (operand : Rule Expr) : Rule Expr := do
  mark .minus
  return .negate (← operand)

/-- A negation or a call. -/
def unary (operand nested : Rule Expr) : Rule Expr :=
  firstOf [negation operand, call nested]

/-- An operator with its mark. -/
def operator (k : Token.Kind) (op : BinaryOperator) : Rule BinaryOperator := do
  mark k
  return op

/-- Operands with operators between them, from left to right. -/
def chain (operators : List (Rule BinaryOperator)) (operand : Rule Expr) : Rule Expr := do
  let first ← operand
  let more ← many do
    let op ← firstOf operators
    return (op, ← operand)
  return more.foldl (fun left (op, right) => .binary op left right) first

/-- A sum of products. -/
def sum (operand : Rule Expr) : Rule Expr :=
  chain [operator .plus .add, operator .minus .sub]
    (chain [operator .asterisk .mul, operator .slash .div] operand)

/-- A binding with its body. -/
def letExpr (nested : Rule Expr) : Rule Expr := do
  let (name, bound) ← binding nested
  return .letIn name bound (← inBody nested)

/-- A binding with its body, or a sum. -/
def expr (operand nested : Rule Expr) : Rule Expr :=
  firstOf [letExpr nested, sum operand]

/-- The rules for less than `depth` levels of nesting. -/
def level : (depth : Nat) → Level
  | 0 => ⟨tooDeep, tooDeep⟩
  | depth + 1 =>
    let inner := level depth
    let operand := unary inner.unary inner.expr
    ⟨operand, expr operand inner.expr⟩

/-- Expressions that nest less than `depth` levels deep. -/
def expression (depth : Nat) : Rule Expr :=
  (level depth).expr

/-- A statement. -/
def statement (nested : Rule Expr) : Rule Stmt :=
  firstOf [definition nested, letStatement nested, Stmt.expr <$> nested]

/-- A program and the end of the text. -/
def program (nested : Rule Expr) : Rule Program := do
  let stmts ← optional (separated .semicolon (statement nested)) []
  optional (mark .semicolon) ()
  finish
  return stmts

/-! ## Expressions -/

section Levels

variable {operand nested : Rule Expr}

theorem opens_parenthesized (h : Points nested) : Opens .openParen (parenthesized nested) :=
  (Opens.mark rfl).bind fun _ => h.bind fun _ => (Points.next _ _).bind fun _ => .pure _

theorem opens_negation (h : Points operand) : Opens .minus (negation operand) :=
  (Opens.mark rfl).bind fun _ => h.bind fun _ => .pure _

theorem opens_binding (h : Points nested) : Opens .letWord (binding nested) :=
  (Opens.mark rfl).bind fun _ => (Points.next _ _).bind fun _ => (Points.next _ _).bind fun _ =>
    h.bind fun _ => .pure _

theorem opens_letExpr (h : Points nested) : Opens .letWord (letExpr nested) :=
  (opens_binding h).bind fun _ => (points_inBody h).bind fun _ => .pure _

theorem primary_eq (h : Points nested) :
    primary nested = Grammar.primary nested := by
  funext fault ts
  cases ts with
  | nil => cases fault <;> rfl
  | cons t ts =>
    cases t with
    | number => rfl
    | string =>
      rw [primary, firstOf_cons_of_passed rfl]
      rfl
    | identifier =>
      rw [primary, firstOf_cons_of_passed rfl, firstOf_cons_of_passed rfl]
      rfl
    | openParen =>
      rw [primary, firstOf_cons_of_passed rfl, firstOf_cons_of_passed rfl,
        firstOf_cons_of_passed rfl]
      exact (opens_parenthesized h).firstOf_cons_self rfl
    | _ =>
      rw [primary, firstOf_cons_of_passed rfl, firstOf_cons_of_passed rfl,
        firstOf_cons_of_passed rfl, firstOf_cons_of_passed rfl]
      rfl

theorem call_eq (h : Points nested) : call nested = Grammar.call nested := by
  rw [call, primary_eq h]
  rfl

theorem collects_call (h : Points nested) : Collects (Grammar.call nested) := by
  have hprimary : Collects (Grammar.primary nested) := by
    refine .of_opens (opens_parenthesized h) (.next Grammar.atom?) fun fault ts => ?_
    cases ts with
    | nil => rfl
    | cons t ts => cases t <;> rfl
  exact hprimary.rounds _ _

theorem unary_eq_ite (operand nested : Rule Expr) (fault : Option LexError) (ts : List Token) :
    Grammar.unary operand nested fault ts =
      if ts.head? = some .minus then negation operand fault ts
      else Grammar.call nested fault ts := by
  cases ts with
  | nil => rfl
  | cons t ts => cases t <;> rfl

theorem unary_eq (h : Points operand) (h' : Points nested) :
    unary operand nested = Grammar.unary operand nested := by
  funext fault ts
  have hcall := (collects_call h').firstOf_singleton
  rw [unary, call_eq h', (opens_negation h).firstOf_cons, hcall, unary_eq_ite]
  · rw [hcall]
    exact (needy_primary nested).bind _
  · intro fault ts
    rw [hcall]
    exact ⟨_, rfl⟩

theorem operator_of_kind_eq {k : Token.Kind} {t : Token} (h : t.kind = k) (op : BinaryOperator)
    (fault : Option LexError) (ts : List Token) :
    operator k op fault (t :: ts) = .fits op ts := by
  simp only [operator, bind_apply, mark, next, if_pos h, pure_apply]

theorem operator_of_kind_ne {k : Token.Kind} {t : Token} (h : t.kind ≠ k) (op : BinaryOperator)
    (fault : Option LexError) (ts : List Token) :
    operator k op fault (t :: ts) = .misfits (t :: ts) (.token k) := by
  simp only [operator, bind_apply, mark, next, if_neg h]

/-- Two operators are told apart by their marks. -/
theorem operators_eq {k k' : Token.Kind} {op op' : BinaryOperator}
    {operator? : Token → Option BinaryOperator}
    (h : ∀ t, operator? t =
      if t.kind = k then some op else if t.kind = k' then some op' else none) :
    firstOf [operator k op, operator k' op'] = next .alternatives operator? := by
  funext fault ts
  cases ts with
  | nil => cases fault <;> rfl
  | cons t ts =>
    by_cases hk : t.kind = k
    · rw [firstOf_cons, operator_of_kind_eq hk, next, h, if_pos hk]
      rfl
    · rw [firstOf_cons_of_passed (operator_of_kind_ne hk op fault ts)]
      by_cases hk' : t.kind = k'
      · rw [firstOf_cons, operator_of_kind_eq hk', next, h, if_neg hk, if_pos hk']
        rfl
      · rw [firstOf_cons_of_passed (operator_of_kind_ne hk' op' fault ts), next, h, if_neg hk,
          if_neg hk']
        rfl

theorem chain_eq {operators : List (Rule BinaryOperator)}
    {operator? : Token → Option BinaryOperator}
    (h : firstOf operators = next .alternatives operator?) (operand : Rule Expr) :
    chain operators operand = Grammar.chain operator? operand := by
  rw [chain, h]
  rfl

theorem sum_eq (operand : Rule Expr) : sum operand = Grammar.sum operand := by
  have hproduct : firstOf [operator .asterisk .mul, operator .slash .div] =
      next .alternatives productOperator? := operators_eq fun t => by cases t <;> rfl
  have hsum : firstOf [operator .plus .add, operator .minus .sub] =
      next .alternatives sumOperator? := operators_eq fun t => by cases t <;> rfl
  rw [sum, chain_eq hproduct, chain_eq hsum]
  rfl

theorem collects_sum (h : Collects operand) : Collects (Grammar.sum operand) :=
  (h.rounds _ _).rounds _ _

theorem collects_unary (h : Points operand) (h' : Points nested) :
    Collects (Grammar.unary operand nested) :=
  .of_opens (opens_negation h) (collects_call h') (unary_eq_ite operand nested)

theorem expr_eq_ite (operand nested : Rule Expr) (fault : Option LexError) (ts : List Token) :
    Grammar.expr operand nested fault ts =
      if ts.head? = some .letWord then letExpr nested fault ts
      else Grammar.sum operand fault ts := by
  cases ts with
  | nil => rfl
  | cons t ts => cases t <;> rfl

theorem expr_eq (h : Points operand) (h' : Points nested) :
    expr (Grammar.unary operand nested) nested =
      Grammar.expr (Grammar.unary operand nested) nested := by
  funext fault ts
  have hsum := (collects_sum (collects_unary h h')).firstOf_singleton
  rw [expr, sum_eq, (opens_letExpr h').firstOf_cons, hsum, expr_eq_ite]
  · rw [hsum]
    exact needy_sum (needy_unary operand nested)
  · intro fault ts
    rw [hsum]
    exact ⟨_, rfl⟩

/-- At every depth the choices in order and the choices by the next token come to the same. -/
theorem level_eq (depth : Nat) : level depth = Grammar.level depth := by
  induction depth with
  | zero => rfl
  | succ depth ih =>
    obtain ⟨hunary, hexpr⟩ := points_level depth
    rw [level, ih, unary_eq hunary hexpr, expr_eq hunary hexpr]
    rfl

theorem expression_eq (depth : Nat) : expression depth = Grammar.expression depth :=
  congrArg Grammar.Level.expr (level_eq depth)

theorem collects_expression (depth : Nat) : Collects (Grammar.expression (depth + 1)) := by
  obtain ⟨hunary, hexpr⟩ := points_level depth
  exact .of_opens (opens_letExpr hexpr) (collects_sum (collects_unary hunary hexpr))
    (expr_eq_ite _ _)

end Levels

/-! ## Programs -/

section Programs

variable {nested : Rule Expr}

theorem opens_definition (h : Points nested) : Opens .defWord (definition nested) := by
  have hparams : Points params := (((Points.next _ _).separated _).optional _).parenthesized
  exact (Opens.mark rfl).bind fun _ => (Points.next _ _).bind fun _ => hparams.bind fun _ =>
    (Points.next _ _).bind fun _ => h.bind fun _ => .pure _

theorem opens_letStatement (h : Points nested) : Opens .letWord (letStatement nested) := by
  have hbody : Points (optional (some <$> inBody nested) none) :=
    ((points_inBody h).map some).optional none
  rw [letStatement_eq]
  exact (opens_binding h).bind fun _ => hbody.bind fun _ => .pure _

/-- Where an expression one level further out misfits, the alternative misfits there, unless it
finds the text nested too deep. -/
theorem exprStatement_eq_tooDeep_or_misfits {depth : Nat} {fault : Option LexError}
    {ts rest : List Token} {e : Expectation}
    (h : Grammar.expression (depth + 1) fault ts = .misfits rest e) :
    (Stmt.expr <$> Grammar.expression depth) fault ts = .abandoned .tooDeep ∨
      (Stmt.expr <$> Grammar.expression depth) fault ts = .misfits rest e := by
  rw [map_eq_bind, bind_apply]
  rcases (approximates_level (Nat.le_succ depth)).2 fault ts with hdeep | heq
  · exact .inl (by rw [Grammar.expression, hdeep])
  · exact .inr (by rw [Grammar.expression, heq, ← Grammar.expression, h])

/-- Where `def` stands, no other alternative begins. -/
theorem statement_def (depth : Nat) (fault : Option LexError) (ts : List Token) :
    statement (Grammar.expression depth) fault (.defWord :: ts) = .abandoned .tooDeep ∨
      statement (Grammar.expression depth) fault (.defWord :: ts) =
        Grammar.statement (Grammar.expression depth) fault (.defWord :: ts) := by
  have hpoints := points_expression depth
  obtain ⟨e, hlet⟩ : ∃ e, letStatement (Grammar.expression depth) fault (.defWord :: ts) =
      .misfits (.defWord :: ts) e := (opens_letStatement hpoints).passed (by simp) nofun
  have hexpr : Grammar.expression (depth + 1) fault (.defWord :: ts) =
      .misfits (.defWord :: ts) .alternatives := rfl
  rcases exprStatement_eq_tooDeep_or_misfits hexpr with hdeep | hno
  · refine firstOf_cons_of_tooDeep ?_
    rw [firstOf_cons_of_passed hlet, firstOf_cons, hdeep]
    rfl
  · refine .inr ((opens_definition hpoints).firstOf_cons_self (e := .alternatives) ?_)
    rw [firstOf_cons_of_passed hlet, firstOf_cons_of_passed hno]
    rfl

/-- Where `let` stands, the binding of a statement and that of an expression misfit at one place. -/
theorem statement_let (depth : Nat) (fault : Option LexError) (ts : List Token) :
    statement (Grammar.expression depth) fault (.letWord :: ts) = .abandoned .tooDeep ∨
      statement (Grammar.expression depth) fault (.letWord :: ts) =
        Grammar.statement (Grammar.expression depth) fault (.letWord :: ts) := by
  have hpoints := points_expression depth
  obtain ⟨e, hdef⟩ : ∃ e, definition (Grammar.expression depth) fault (.letWord :: ts) =
      .misfits (.letWord :: ts) e := (opens_definition hpoints).passed (by simp) nofun
  have hbinding : Grammar.statement (Grammar.expression depth) fault (.letWord :: ts) =
      letStatement (Grammar.expression depth) fault (.letWord :: ts) := rfl
  have hsame := sameBinding_statement (Grammar.level (depth + 1)).unary
    (Grammar.expression depth) fault ts
  rw [hbinding] at hsame ⊢
  rw [statement, firstOf_cons_of_passed hdef]
  cases hlet : letStatement (Grammar.expression depth) fault (.letWord :: ts) with
  | fits | abandoned =>
    right
    rw [firstOf_cons, hlet]
    rfl
  | misfits rest e =>
    rw [hlet] at hsame
    have hexpr : Grammar.expression (depth + 1) fault (.letWord :: ts) = .misfits rest e :=
      hsame.eq_misfits
    rcases exprStatement_eq_tooDeep_or_misfits hexpr with hdeep | hno
    · rw [← hlet]
      refine firstOf_cons_of_tooDeep ?_
      rw [firstOf_cons, hdeep]
      rfl
    · right
      rw [← hlet]
      exact firstOf_pair hlet hno ((opens_letStatement hpoints).length_lt hlet)

/-- Where neither stands, only an expression is left. -/
theorem statement_expr {depth : Nat} {fault : Option LexError} {ts : List Token}
    (hdef : ts.head? ≠ some .defWord) (hlet : ts.head? ≠ some .letWord) :
    statement (Grammar.expression (depth + 1)) fault ts =
      Grammar.statement (Grammar.expression (depth + 1)) fault ts := by
  have hpoints := points_expression (depth + 1)
  have hdefinition := opens_definition hpoints
  have hbinding := opens_letStatement hpoints
  have hneedy : Needy (Stmt.expr <$> Grammar.expression (depth + 1)) :=
    (needy_expression depth).bind _
  rw [statement_eq_expr hdef hlet, statement,
    hdefinition.firstOf_cons_of_head?_ne (hbinding.needy.firstOf _) hdef,
    hbinding.firstOf_cons_of_head?_ne (hneedy.firstOf _) hlet,
    ((collects_expression depth).map Stmt.expr).firstOf_singleton]

/-- A statement is read alike, unless the choice finds the text nested too deep. -/
theorem approximates_statement (depth : Nat) :
    Approximates (statement (Grammar.expression (depth + 1)))
      (Grammar.statement (Grammar.expression (depth + 1))) := by
  intro fault ts
  by_cases hdef : ts.head? = some .defWord
  · obtain ⟨ts, rfl⟩ := List.head?_eq_some_iff.1 hdef
    exact statement_def (depth + 1) fault ts
  · by_cases hlet : ts.head? = some .letWord
    · obtain ⟨ts, rfl⟩ := List.head?_eq_some_iff.1 hlet
      exact statement_let (depth + 1) fault ts
    · exact .inr (statement_expr hdef hlet)

theorem approximates_program (depth : Nat) :
    Approximates (program (Grammar.expression (depth + 1)))
      (Grammar.program (Grammar.expression (depth + 1))) :=
  (((approximates_statement depth).separated _).optional _).bind fun _ => .refl _

theorem program_ne_tooDeep {depth : Nat} {fault : Option LexError} {ts : List Token}
    (h : ts.length < depth) :
    program (Grammar.expression depth) fault ts ≠ .abandoned .tooDeep := by
  have hexpr := (reads_level depth).2
  have hstmt : Reads depth (statement (Grammar.expression depth)) IsStmt := by
    refine .firstOf (List.forall_mem_cons.2 ⟨reads_definition hexpr, ?_⟩) (List.cons_ne_nil _ _)
    refine List.forall_mem_cons.2 ⟨reads_letStatement hexpr, List.forall_mem_singleton.2 ?_⟩
    exact reads_exprStatement hexpr
  have hstmts := reads_list (reads_separated (k := .semicolon) rfl hstmt)
  exact (hstmts.andThen (reads_closing depth)).shallow h

end Programs

end Grammar.Ordered

/-! ## Texts -/

section Texts

theorem read_congr {α : Type} {r s : Rule α} {text : String}
    (h : r (Stream.ofText text).fault (Stream.ofText text).tokens =
      s (Stream.ofText text).fault (Stream.ofText text).tokens) : r.read text = s.read text := by
  rw [Rule.read, Rule.read, h]

/-- **Expressions are read alike with choices in order and with choices by the next token,**
whatever the text and the depth. -/
theorem exprOfText_eq_read_ordered (depth : Nat) (text : String) : Expr.ofText depth text =
    (Grammar.wholeExpression (Grammar.Ordered.expression depth)).read text := by
  rw [Grammar.Ordered.expression_eq]
  rfl

/-- **Programs are read alike with choices in order and with choices by the next token,** unless the
choices in order find the text nested too deep. -/
theorem read_ordered_eq_tooDeep_or_eq (depth : Nat) (text : String) :
    (Grammar.Ordered.program (Grammar.Ordered.expression (depth + 1))).read text = .error .tooDeep ∨
      (Grammar.Ordered.program (Grammar.Ordered.expression (depth + 1))).read text =
        Program.ofText (depth + 1) text := by
  rw [Grammar.Ordered.expression_eq]
  rcases Grammar.Ordered.approximates_program depth (Stream.ofText text).fault
    (Stream.ofText text).tokens with hdeep | heq
  · left
    rw [Rule.read, hdeep]
  · exact .inr (read_congr heq)

/-- **With levels enough for the text** they are read alike. -/
theorem ofText_eq_read_ordered {depth : Nat} {text : String} (hdepth : text.length < depth) :
    Program.ofText depth text =
      (Grammar.Ordered.program (Grammar.Ordered.expression depth)).read text := by
  have hlen := length_tokens_le text
  obtain ⟨depth, rfl⟩ : ∃ k, depth = k + 1 := ⟨depth - 1, by omega⟩
  rw [Grammar.Ordered.expression_eq]
  refine read_congr (Eq.symm ?_)
  exact (Grammar.Ordered.approximates_program depth _ _).resolve_left
    (Grammar.Ordered.program_ne_tooDeep (by omega))

end Texts

end Calx
