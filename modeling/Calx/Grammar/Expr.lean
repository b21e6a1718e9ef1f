import Calx.Grammar.Rule
import Calx.Expr.Basic

/-!
# The grammar of expressions

    expr     := "let" IDENT "=" expr "in" expr / sum
    sum      := product (("+" / "-") product)*
    product  := unary (("*" / "/") unary)*
    unary    := "-" unary / call
    call     := primary ("(" [expr ("," expr)*] ")")*
    primary  := NUMBER / STRING / IDENT / "(" expr ")"

Each choice is settled by the next token, which comes to the same as trying one alternative after
the other (`Calx.exprOfText_eq_read_ordered`). Operators associate to the left, and a call binds
tighter than a minus sign. `expression depth` reads expressions that nest less than `depth` levels
deep, where a level is a parenthesis, a call, a minus sign or a `let`.
-/

namespace Calx.Grammar

open Rule

/-- The expression that a token is on its own. -/
def atom? : Token → Option Expr
  | .number x => some (.number x)
  | .string s => some (.text s)
  | .identifier n => some (.var n)
  | _ => none

/-- A primary expression, with the rule for an expression between parentheses. -/
def primary (nested : Rule Expr) : Rule Expr :=
  onNext fun
    | some .openParen => parenthesized nested
    | _ => next .alternatives atom?

/-- The arguments of a call. -/
def arguments (nested : Rule Expr) : Rule (List Expr) :=
  parenthesized (optional (separated .comma nested) [])

/-- A primary expression and the calls behind it. -/
def call (nested : Rule Expr) : Rule Expr := do
  let callee ← primary nested
  let calls ← many (arguments nested)
  return calls.foldl .apply callee

/-- A negation, with the rule for its operand, or a call. -/
def unary (operand nested : Rule Expr) : Rule Expr :=
  onNext fun
    | some .minus => do
      mark .minus
      return .negate (← operand)
    | _ => call nested

/-- The operator that a token is between two products. -/
def sumOperator? : Token → Option BinaryOperator
  | .plus => some .add
  | .minus => some .sub
  | _ => none

/-- The operator that a token is between two unary expressions. -/
def productOperator? : Token → Option BinaryOperator
  | .asterisk => some .mul
  | .slash => some .div
  | _ => none

/-- Operands with operators between them, from left to right. -/
def chain (operator? : Token → Option BinaryOperator) (operand : Rule Expr) : Rule Expr := do
  let first ← operand
  let more ← many do
    let op ← next .alternatives operator?
    return (op, ← operand)
  return more.foldl (fun left (op, right) => .binary op left right) first

/-- A sum, with the rule for its unary expressions. -/
def sum (operand : Rule Expr) : Rule Expr :=
  chain sumOperator? (chain productOperator? operand)

/-- A name and the expression bound to it. -/
def binding (bound : Rule Expr) : Rule (String × Expr) := do
  mark .letWord
  let name ← identifier
  mark .equals
  return (name, ← bound)

/-- The keyword `in` and the expression that sees a binding. -/
def inBody (body : Rule Expr) : Rule Expr := do
  mark .inWord
  body

/-- A binding with its body, or a sum. -/
def expr (operand nested : Rule Expr) : Rule Expr :=
  onNext fun
    | some .letWord => do
      let (name, bound) ← binding nested
      return .letIn name bound (← inBody nested)
    | _ => sum operand

/-- The two rules that nest. -/
structure Level where
  /-- Unary expressions. -/
  unary : Rule Expr
  /-- Expressions. -/
  expr : Rule Expr

/-- The rules one level further out. -/
def Level.outer (inner : Level) : Level :=
  let operand := Grammar.unary inner.unary inner.expr
  ⟨operand, Grammar.expr operand inner.expr⟩

/-- The rules for less than `depth` levels of nesting. -/
def level : (depth : Nat) → Level
  | 0 => ⟨tooDeep, tooDeep⟩
  | depth + 1 => (level depth).outer

/-- Expressions that nest less than `depth` levels deep. -/
def expression (depth : Nat) : Rule Expr :=
  (level depth).expr

end Calx.Grammar
