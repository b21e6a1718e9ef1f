import Calx.Grammar.Expr
import Calx.Program.Basic
import Calx.Token.Stream

/-!
# The grammar of programs

    program  := [stmt (";" stmt)*] [";"] END
    stmt     := "def" IDENT "(" [IDENT ("," IDENT)*] ")" "=" expr
              / "let" IDENT "=" expr ["in" expr]
              / expr

Here too the next token settles the choice (`Calx.ofText_eq_read_ordered`). `Program.ofText` and
`Expr.ofText` read a whole text. Since every part of a program may be missing, a program that does
not fit is always blamed on the place where its longest beginning that is a program ends; an
expression is blamed on the place furthest into it.
-/

namespace Calx

namespace Grammar

open Rule

/-- The parameters of a definition. -/
def params : Rule (List String) :=
  parenthesized (optional (separated .comma identifier) [])

/-- A definition. -/
def definition (body : Rule Expr) : Rule Stmt := do
  mark .defWord
  let name ← identifier
  let ps ← params
  mark .equals
  return .define name ps (← body)

/-- A binding for the later statements or, with a body, an expression. -/
def letStatement (nested : Rule Expr) : Rule Stmt := do
  let (name, bound) ← binding nested
  match ← optional (some <$> inBody nested) none with
  | none => return .bind name bound
  | some body => return .expr (.letIn name bound body)

/-- A statement. -/
def statement (nested : Rule Expr) : Rule Stmt :=
  onNext fun
    | some .defWord => definition nested
    | some .letWord => letStatement nested
    | _ => Stmt.expr <$> nested

/-- A program and the end of the text. -/
def program (nested : Rule Expr) : Rule Program := do
  let stmts ← optional (separated .semicolon (statement nested)) []
  optional (mark .semicolon) ()
  finish
  return stmts

/-- An expression and the end of the text. -/
def wholeExpression (nested : Rule Expr) : Rule Expr := do
  let e ← nested
  finish
  return e

end Grammar

/-- Why a text is not read. -/
inductive Rejection where
  /-- A token was needed where none can be cut. -/
  | lexical (error : LexError)
  /-- The text does not follow the grammar. -/
  | unfit (diagnostic : Diagnostic)
  /-- The text nests too deep. -/
  | tooDeep
deriving DecidableEq

/-- Reads a whole text by a rule. -/
def Rule.read {α : Type} (rule : Rule α) (text : String) : Except Rejection α :=
  let stream := Stream.ofText text
  match rule stream.fault stream.tokens with
  | .fits a _ => .ok a
  | .misfits rest e =>
    .error (.unfit (.ofExpectation text.toList (stream.placeOf rest.length) e))
  | .abandoned (.lexical e) => .error (.lexical e)
  | .abandoned .tooDeep => .error .tooDeep

/-- Reads a program that nests less than `depth` levels deep. -/
def Program.ofText (depth : Nat) (text : String) : Except Rejection Program :=
  (Grammar.program (Grammar.expression depth)).read text

/-- Reads an expression that nests less than `depth` levels deep. -/
def Expr.ofText (depth : Nat) (text : String) : Except Rejection Expr :=
  (Grammar.wholeExpression (Grammar.expression depth)).read text

end Calx
