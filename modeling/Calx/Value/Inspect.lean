import Calx.Value.Basic
import Calx.Text.Literal

/-!
# Inspected values

The text of a value as a tree of named constructors with named fields, for looking inside one.
-/

namespace Calx

/-- A constructor applied to named fields. -/
def inspectNode (constructor : String) (fields : List (String × String)) : String :=
  constructor ++ "(" ++ ", ".intercalate (fields.map fun f => f.1 ++ "=" ++ f.2) ++ ")"

/-- A binary operator, by its constructor and its symbol. -/
def BinaryOperator.inspect (op : BinaryOperator) : String :=
  let name := match op with
    | add => "ADD"
    | sub => "SUB"
    | mul => "MUL"
    | div => "DIV"
  "<BinaryOperator." ++ name ++ ": '" ++ op.symbol ++ "'>"

namespace Expr

mutual

/-- An expression with all its constructors. -/
def inspect : Expr → String
  | number x => inspectNode "Number" [("value", Number.write x)]
  | text s => inspectNode "String" [("value", Text.literal s)]
  | negate e => inspectNode "UnaryOp" [("op", "<UnaryOperator.NEG: '-'>"), ("operand", e.inspect)]
  | binary op l r =>
    inspectNode "BinaryOp" [("op", op.inspect), ("left", l.inspect), ("right", r.inspect)]
  | var n => inspectNode "Variable" [("name", Text.literal n)]
  | apply f args =>
    inspectNode "Apply" [("func", f.inspect), ("args", Text.tuple (inspectList args))]
  | letIn n b e =>
    inspectNode "Let" [("name", Text.literal n), ("bound", b.inspect), ("body", e.inspect)]

/-- Each of some expressions with all its constructors. -/
def inspectList : List Expr → List String
  | [] => []
  | e :: es => e.inspect :: inspectList es

end

end Expr

/-- A value with all its constructors. -/
def Value.inspect : Value → String
  | unit => inspectNode "Unit" []
  | number x => inspectNode "Number" [("value", Number.write x)]
  | text s => inspectNode "String" [("value", Text.literal s)]
  | function f =>
    inspectNode "Function" [("name", Text.literal f.name),
      ("params", Text.tuple (f.params.map Text.literal)), ("body", f.body.inspect)]

end Calx
