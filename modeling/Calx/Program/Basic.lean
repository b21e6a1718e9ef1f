import Calx.Expr.Written

/-!
# Programs

A program is a list of statements: expressions, function definitions and bindings. `Program.render`
writes one statement per line.
-/

namespace Calx

/-- A statement. -/
inductive Stmt where
  /-- An expression, for its value. -/
  | expr (e : Expr)
  /-- The definition of a function. -/
  | define (name : String) (params : List String) (body : Expr)
  /-- A binding that the later statements see. -/
  | bind (name : String) (bound : Expr)
deriving DecidableEq

/-- A program. -/
abbrev Program := List Stmt

namespace Stmt

/-- A statement in the language itself. -/
def render : Stmt → String
  | expr e => e.render ++ ";"
  | define n ps e => "def " ++ n ++ "(" ++ ", ".intercalate ps ++ ") = " ++ e.render ++ ";"
  | bind n e => "let " ++ n ++ " = " ++ e.render ++ ";"

/-- The depth of a statement: one more than that of its expression. -/
def depth : Stmt → Nat
  | expr e | define _ _ e | bind _ e => e.depth + 1

end Stmt

namespace Program

/-- A program in the language itself, one statement per line. -/
def render (p : Program) : String :=
  "\n".intercalate (p.map Stmt.render)

/-- The largest depth of a statement. -/
def depth (p : Program) : Nat :=
  p.foldl (fun n s => max n s.depth) 0

end Program

end Calx
