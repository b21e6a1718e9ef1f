import Calx.Value.Basic

/-!
# Failures of evaluation

An evaluation error is a fault of the program. Besides these, evaluation can fail because a text
would become longer than the machine can hold, or because the program nests or recurses too deep.
-/

namespace Calx

/-- A fault of the program that evaluation meets. -/
inductive EvalError where
  /-- A name is not bound. -/
  | undefinedVariable (name : String)
  /-- An operator is applied to operands it is not defined for. -/
  | badOperands (operator : String) (operands : List ValueType)
  /-- A value that is no function is called. -/
  | uncallable (callee : ValueType)
  /-- A function is called with too few or too many arguments. -/
  | wrongArity (expected got : Nat)
deriving DecidableEq

namespace EvalError

/-- The wording for a name that is not bound. -/
def undefinedText (name : String) : String :=
  "undefined variable: " ++ name

/-- The wording of an evaluation error. -/
def message : EvalError → String
  | undefinedVariable n => undefinedText n
  | badOperands .. => "bad operand type"
  | uncallable _ => "uncallable object"
  | wrongArity .. => "wrong number of arguments"

end EvalError

/-- A limit of the machine that a text can reach. -/
inductive Exhaustion where
  /-- The length of the text cannot be counted. -/
  | length
  /-- The text does not fit into memory. -/
  | memory
deriving DecidableEq

/-- Why an evaluation fails. -/
inductive Failure where
  /-- The program is at fault. -/
  | error (e : EvalError)
  /-- A text would become too long. -/
  | exhausted (e : Exhaustion)
  /-- The evaluation, or a tree to be shown, goes too deep. -/
  | tooDeep
deriving DecidableEq

end Calx
