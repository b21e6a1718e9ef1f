import Calx.Expr.Basic
import Calx.Token.Quoted
import Calx.Number.Numeral

/-!
# Written expressions

`Expr.render` writes an expression in the language itself. Every binary operator and every binding
gets parentheses; a number is written so that it reads back, infinity as a numeral that overflows.
-/

namespace Calx.Expr

/-- A number in an expression. -/
def renderNumber (x : Float) : String :=
  if x.isInf then (if Number.isNegative x then "-1e999" else "1e999") else Number.write x

mutual

/-- An expression in the language itself. -/
def render : Expr → String
  | number x => renderNumber x
  | text s => Quoted.quote s
  | negate e => "-" ++ e.render
  | binary op l r => "(" ++ l.render ++ " " ++ op.symbol ++ " " ++ r.render ++ ")"
  | var n => n
  | apply f args => f.render ++ "(" ++ ", ".intercalate (renderList args) ++ ")"
  | letIn n b e => "(let " ++ n ++ " = " ++ b.render ++ " in " ++ e.render ++ ")"

/-- Each of some expressions in the language itself. -/
def renderList : List Expr → List String
  | [] => []
  | e :: es => e.render :: renderList es

end

theorem renderList_eq_map (es : List Expr) : renderList es = es.map render := by
  induction es with
  | nil => rfl
  | cons e es ih => simp [renderList, ih]

end Calx.Expr
