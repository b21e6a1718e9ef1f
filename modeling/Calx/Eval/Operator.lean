import Calx.Eval.Failure

/-!
# Operators

The operators on values. Arithmetic is that of IEEE doubles, division by zero included; `+` also
joins texts, and `*` also repeats a text. All else is refused with the types of the operands.

How long a text the memory holds is a parameter of all that evaluates, the `Machine`.
-/

namespace Calx

-- Powers are those of `Nat` itself, also next to a library that has its own.
attribute [local instance (high)] instPowNat

/-- What a program runs on. -/
class Machine where
  /-- The length of the longest text that the memory holds. -/
  memory : Nat

/-- The machine that a program runs on unless another one is given. -/
instance Machine.standard : Machine := ⟨2 ^ (32 : Nat)⟩

variable [Machine]

namespace Value

/-- The refusal of a binary operator. -/
def refuse (op : BinaryOperator) (x y : Value) : Except Failure Value :=
  .error (.error (.badOperands op.symbol [x.type, y.type]))

/-- The longest length that can be counted. -/
def maxLength : Nat := 2 ^ (63 : Nat) - 1

/-- The least double that is too large to be a count. -/
def countBound : Float := 9223372036854775808.0

/-- A text `count` times over. -/
def repeatText (s : String) (count : Nat) : Except Failure Value :=
  if s.length ≠ 1 ∧ maxLength < s.length * count then .error (.exhausted .length)
  else if Machine.memory < s.length * count then .error (.exhausted .memory)
  else .ok (.text (String.ofList (List.replicate count s.toList).flatten))

/-- The sum of two numbers, or two texts joined. -/
def add : Value → Value → Except Failure Value
  | number x, number y => .ok (number (x + y))
  | text s, text t => .ok (text (s ++ t))
  | x, y => refuse .add x y

/-- The difference of two numbers. -/
def sub : Value → Value → Except Failure Value
  | number x, number y => .ok (number (x - y))
  | x, y => refuse .sub x y

/-- The product of two numbers, or a text repeated. The count is rounded toward zero; a count that
is negative or not a number gives the empty text, and one too large to be a count is refused. -/
def mul : Value → Value → Except Failure Value
  | number x, number y => .ok (number (x * y))
  | text s, number y =>
    if s.isEmpty ∨ y.isNaN ∨ y ≤ 0 then .ok (text "")
    else if countBound ≤ y then refuse .mul (text s) (number y)
    else repeatText s y.toUInt64.toNat
  | x, y => refuse .mul x y

/-- The quotient of two numbers. -/
def div : Value → Value → Except Failure Value
  | number x, number y => .ok (number (x / y))
  | x, y => refuse .div x y

/-- The opposite of a number. -/
def neg : Value → Except Failure Value
  | number x => .ok (number (-x))
  | x => .error (.error (.badOperands "-" [x.type]))

end Value

/-- The operator table. -/
def BinaryOperator.apply : BinaryOperator → Value → Value → Except Failure Value
  | add => Value.add
  | sub => Value.sub
  | mul => Value.mul
  | div => Value.div

end Calx
