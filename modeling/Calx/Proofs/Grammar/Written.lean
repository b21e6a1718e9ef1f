import Calx.Proofs.Expr.Normal
import Calx.Proofs.Grammar.Phrase

/-!
# Written trees as phrases

The tokens that a tree is written as are a phrase for its normal form (`isExpr_written`,
`isProgram_written`). Every expression is written as some minus signs and a call behind them; to
call that once more is to call what stands behind the signs (`Signed.apply`).
-/

namespace Calx

/-- The token that a binary operator is written as. -/
def BinaryOperator.token : BinaryOperator → Token
  | add => .plus
  | sub => .minus
  | mul => .asterisk
  | div => .slash

namespace Expr

mutual

/-- The tokens that an expression is written as. -/
def written : Expr → List Token
  | number x => [.number x]
  | text s => [.string s]
  | negate e => .minus :: e.written
  | binary op l r => .openParen :: (l.written ++ op.token :: (r.written ++ [.closeParen]))
  | var n => [.identifier n]
  | apply f args =>
    f.written ++ .openParen :: ([Token.comma].intercalate (writtenList args) ++ [.closeParen])
  | letIn n b e =>
    .openParen :: .letWord :: .identifier n :: .equals ::
      (b.written ++ .inWord :: (e.written ++ [.closeParen]))

/-- The tokens that each of some expressions is written as. -/
def writtenList : List Expr → List (List Token)
  | [] => []
  | e :: es => e.written :: writtenList es

end

theorem writtenList_eq_map (es : List Expr) : writtenList es = es.map written := by
  induction es with
  | nil => rfl
  | cons e es ih => rw [writtenList, ih, List.map_cons]

end Expr

/-- The tokens that the parameters of a definition are written as. -/
def writtenParams (ps : List String) : List Token :=
  .openParen :: ([Token.comma].intercalate (ps.map fun n => [.identifier n]) ++ [.closeParen])

/-- The tokens that a statement is written as, without its semicolon. -/
def Stmt.written : Stmt → List Token
  | expr e => e.written
  | define n ps e => .defWord :: .identifier n :: (writtenParams ps ++ .equals :: e.written)
  | bind n e => .letWord :: .identifier n :: .equals :: e.written

/-- The tokens that a program is written as. -/
def Program.written (p : Program) : List Token :=
  p.flatMap fun s => s.written ++ [.semicolon]

/-! ## Items with a mark between them -/

section Items

variable {α β : Type} {item : Phrase β} {mark : Token} {tokens : α → List Token} {value : α → β}

theorem separated_intercalate {a : α} {as : List α}
    (h : ∀ b ∈ a :: as, item (tokens b) (value b)) :
    Separated mark item ([mark].intercalate ((a :: as).map tokens)) ((a :: as).map value) := by
  induction as generalizing a with
  | nil =>
    rw [List.map_singleton, List.map_singleton, List.intercalate_singleton]
    exact .one (h a List.mem_cons_self)
  | cons b as ih =>
    rw [List.map_cons, List.map_cons, List.map_cons, List.intercalate_cons_cons, ← List.map_cons,
      ← List.map_cons, List.append_assoc]
    exact .more (h a List.mem_cons_self) (ih fun c hc => h c (List.mem_cons_of_mem a hc))

theorem perhaps_intercalate {as : List α} (h : ∀ b ∈ as, item (tokens b) (value b)) :
    Perhaps (Separated mark item) ([mark].intercalate (as.map tokens)) (as.map value) := by
  cases as with
  | nil => exact .absent
  | cons a as => exact .present (separated_intercalate h)

/-- Items that each stand for what they are written for. -/
theorem perhaps_intercalate_self {item : Phrase α} {as : List α}
    (h : ∀ b ∈ as, item (tokens b) b) :
    Perhaps (Separated mark item) ([mark].intercalate (as.map tokens)) as := by
  have hid : Perhaps (Separated mark item) ([mark].intercalate (as.map tokens)) (as.map id) :=
    perhaps_intercalate h
  rwa [List.map_id] at hid

end Items

/-- What holds in the items and in the marks between them holds throughout. -/
theorem forall_mem_intercalate {α : Type} {holds : α → Prop} {mark : List α}
    {items : List (List α)} (hmark : ∀ a ∈ mark, holds a)
    (h : ∀ item ∈ items, ∀ a ∈ item, holds a) : ∀ a ∈ mark.intercalate items, holds a := by
  induction items with
  | nil => exact nofun
  | cons item items ih =>
    rw [List.forall_mem_cons] at h
    cases items with
    | nil =>
      rw [List.intercalate_singleton]
      exact h.1
    | cons item' items =>
      rw [List.intercalate_cons_cons]
      exact List.forall_mem_append.2 ⟨List.forall_mem_append.2 ⟨h.1, hmark⟩, ih h.2⟩

/-! ## Expressions -/

theorem IsUnary.isExpr {ts : List Token} {e : Expr} (h : IsUnary ts e) : IsExpr ts e :=
  .sum (.operand (.operand h))

theorem isCall_between {ts : List Token} {e : Expr} (h : IsExpr ts e) :
    IsCall IsExpr (.openParen :: (ts ++ [.closeParen])) e :=
  .primary (.parenthesized (.intro h))

/-- Some minus signs with a call behind them. -/
inductive Signed : Phrase Expr where
  | call {ts : List Token} {e : Expr} (h : IsCall IsExpr ts e) (hneg : e.isNegation = false) :
      Signed ts e
  | negate {ts : List Token} {e : Expr} (h : Signed ts e) : Signed (.minus :: ts) (.negate e)

namespace Signed

variable {ts us : List Token} {e : Expr}

theorem isUnary (h : Signed ts e) : IsUnary ts e := by
  induction h with
  | call h _ => exact .call h
  | negate _ ih => exact .negate ih

theorem isExpr (h : Signed ts e) : IsExpr ts e :=
  h.isUnary.isExpr

/-- A call of it calls what stands behind the minus signs. -/
theorem apply (h : Signed ts e) {args : List Expr}
    (hargs : Between (Perhaps (Separated .comma IsExpr)) us args) :
    Signed (ts ++ us) (e.applied args) := by
  induction h with
  | call h hneg =>
    rw [Expr.applied_of_isNegation hneg]
    exact .call (.apply h hargs) rfl
  | negate _ ih => exact .negate ih

theorem primary (h : IsPrimary IsExpr ts e) (hneg : e.isNegation = false) : Signed ts e :=
  .call (.primary h) hneg

theorem parenthesized (h : IsExpr ts e) (hneg : e.isNegation = false) :
    Signed (.openParen :: (ts ++ [.closeParen])) e :=
  .call (isCall_between h) hneg

end Signed

theorem isExpr_binary (op : BinaryOperator) {ts us : List Token} {l r : Expr} (hl : IsUnary ts l)
    (hr : IsUnary us r) : IsExpr (ts ++ op.token :: us) (.binary op l r) := by
  cases op with
  | add => exact .sum (.binary (.operand (.operand hl)) .add (.operand hr))
  | sub => exact .sum (.binary (.operand (.operand hl)) .sub (.operand hr))
  | mul => exact .sum (.operand (.binary (.operand hl) .mul hr))
  | div => exact .sum (.operand (.binary (.operand hl) .div hr))

mutual

theorem signed_written : (e : Expr) → Signed e.written e.norm
  | .number x => .primary (.number x) rfl
  | .text s => .primary (.string s) rfl
  | .var n => .primary (.identifier n) rfl
  | .negate e => .negate (signed_written e)
  | .binary op l r => by
    have h : Signed _ (.binary op l.norm r.norm) :=
      .parenthesized (isExpr_binary op (signed_written l).isUnary (signed_written r).isUnary) rfl
    rwa [List.append_assoc, List.cons_append] at h
  | .apply f args => by
    rw [Expr.written, Expr.norm, Expr.writtenList_eq_map, Expr.normList_eq_map]
    exact (signed_written f).apply (.intro (perhaps_intercalate (isExpr_writtenList args)))
  | .letIn n b e => by
    have h : Signed _ (.letIn n b.norm e.norm) :=
      .parenthesized (.letIn (signed_written b).isExpr (signed_written e).isExpr) rfl
    simp only [List.cons_append, List.append_assoc] at h
    exact h

theorem isExpr_writtenList : (es : List Expr) → ∀ e ∈ es, IsExpr e.written e.norm
  | e :: _, _, .head _ => (signed_written e).isExpr
  | _ :: es, e, .tail _ he => isExpr_writtenList es e he

end

theorem isExpr_written (e : Expr) : IsExpr e.written e.norm :=
  (signed_written e).isExpr

/-! ## Statements and programs -/

theorem between_writtenParams (ps : List String) :
    Between (Perhaps (Separated .comma IsIdentifier)) (writtenParams ps) ps :=
  .intro (perhaps_intercalate_self fun n _ => .intro n)

theorem isStmt_written (s : Stmt) : IsStmt s.written s.norm := by
  cases s with
  | expr e => exact .expr (isExpr_written e)
  | bind n e => exact .bind (isExpr_written e)
  | define n ps e => exact .define (between_writtenParams ps) (isExpr_written e)

/-- Statements that each end in a semicolon have one between them, and one more at the end. -/
theorem written_eq_intercalate (s : Stmt) (p : Program) : Program.written (s :: p) =
    [Token.semicolon].intercalate ((s :: p).map Stmt.written) ++ [.semicolon] := by
  induction p generalizing s with
  | nil => simp [Program.written]
  | cons s' p ih =>
    rw [List.map_cons, List.map_cons, List.intercalate_cons_cons, ← List.map_cons,
      List.append_assoc, List.append_assoc, ← ih s']
    simp [Program.written]

/-- **What is written is a phrase.** The tokens that a program is written as are its normal form. -/
theorem isProgram_written (p : Program) : IsProgram p.written p.norm := by
  cases p with
  | nil => exact .bare .absent
  | cons s p =>
    rw [written_eq_intercalate]
    exact .closed (perhaps_intercalate fun t _ => isStmt_written t)

end Calx
