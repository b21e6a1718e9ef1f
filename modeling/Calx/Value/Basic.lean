import Calx.Expr.Basic
import Calx.Token.Quoted
import Calx.Number.Numeral

/-!
# Values

What evaluation yields: unit, a number, a text or a function. A function keeps its body and no
environment; its free names are looked up where it is called. `Value.display` is what a session
shows; texts and finite numbers are shown so that they read back.
-/

namespace Calx

/-- A function: its name, its parameters and its body. -/
structure Function where
  /-- The name it was defined under. -/
  name : String
  /-- Its parameters. -/
  params : List String
  /-- Its body. -/
  body : Expr
deriving DecidableEq

/-- A value. -/
inductive Value where
  /-- The value of a statement that only binds a name. -/
  | unit
  /-- A number. -/
  | number (value : Float)
  /-- A text. -/
  | text (value : String)
  /-- A function. -/
  | function (f : Function)
deriving DecidableEq

/-- The type of a value. -/
inductive ValueType where
  | unit
  | number
  | text
  | function
deriving DecidableEq

/-- The name of a type, as errors give it. -/
def ValueType.name : ValueType → String
  | unit => "Unit"
  | number => "Number"
  | text => "String"
  | function => "Function"

/-- A function as it is shown: its name and its parameters. -/
def Function.signature (f : Function) : String :=
  f.name ++ "(" ++ ", ".intercalate f.params ++ ")"

namespace Value

/-- The type of a value. -/
def type : Value → ValueType
  | unit => .unit
  | number _ => .number
  | text _ => .text
  | function _ => .function

/-- A number as it is shown. -/
def displayNumber (x : Float) : String :=
  if x.isNaN then "NaN" else Number.write x

/-- A value as it is shown. -/
def display : Value → String
  | unit => "()"
  | number x => displayNumber x
  | text s => Quoted.quote s
  | function f => "<function " ++ f.signature ++ ">"

end Value

end Calx
