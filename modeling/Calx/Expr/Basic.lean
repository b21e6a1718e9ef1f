/-!
# Expressions

The tree of an expression, with decidable equality, its depth and the names in it. `Expr.depth`
measures how deep any walk over the tree goes: a leaf has depth 1.
-/

namespace Calx

/-- A binary operator. -/
inductive BinaryOperator where
  /-- Addition of numbers, concatenation of texts. -/
  | add
  /-- Subtraction. -/
  | sub
  /-- Multiplication of numbers, repetition of a text. -/
  | mul
  /-- Division. -/
  | div
deriving DecidableEq

/-- The symbol of a binary operator. -/
def BinaryOperator.symbol : BinaryOperator → String
  | add => "+"
  | sub => "-"
  | mul => "*"
  | div => "/"

/-- An expression. -/
inductive Expr where
  /-- A number. -/
  | number (value : Float)
  /-- A text. -/
  | text (value : String)
  /-- The negation of an expression. -/
  | negate (operand : Expr)
  /-- A binary operator between two expressions. -/
  | binary (op : BinaryOperator) (left right : Expr)
  /-- A name. -/
  | var (name : String)
  /-- The application of a function to arguments. -/
  | apply (callee : Expr) (arguments : List Expr)
  /-- A binding that only the body sees. -/
  | letIn (name : String) (bound body : Expr)

namespace Expr

mutual

/-- Whether two expressions are the same tree. -/
def same : Expr → Expr → Bool
  | number x, number y => x = y
  | text s, text t => s = t
  | negate a, negate b => same a b
  | binary o a₁ a₂, binary p b₁ b₂ => o = p && same a₁ b₁ && same a₂ b₂
  | var m, var n => m = n
  | apply a as, apply b bs => same a b && sameList as bs
  | letIn m a₁ a₂, letIn n b₁ b₂ => m = n && same a₁ b₁ && same a₂ b₂
  | _, _ => false

/-- Whether two lists of expressions are the same, tree by tree. -/
def sameList : List Expr → List Expr → Bool
  | [], [] => true
  | a :: as, b :: bs => same a b && sameList as bs
  | _, _ => false

end

mutual

theorem same_iff : (a b : Expr) → (same a b = true ↔ a = b)
  | number _, b | text _, b | var _, b => by cases b <;> simp [same]
  | negate a, b => by cases b <;> simp [same, same_iff a]
  | binary _ a₁ a₂, b => by cases b <;> simp [same, same_iff a₁, same_iff a₂, and_assoc]
  | apply a as, b => by cases b <;> simp [same, same_iff a, sameList_iff as]
  | letIn _ a₁ a₂, b => by cases b <;> simp [same, same_iff a₁, same_iff a₂, and_assoc]

theorem sameList_iff : (as bs : List Expr) → (sameList as bs = true ↔ as = bs)
  | [], bs => by cases bs <;> simp [sameList]
  | a :: as, bs => by cases bs <;> simp [sameList, same_iff a, sameList_iff as]

end

instance : DecidableEq Expr := fun a b => decidable_of_iff (same a b = true) (same_iff a b)

mutual

/-- The depth of an expression: the most nodes on a way from its root down. -/
def depth : Expr → Nat
  | number _ | text _ | var _ => 1
  | negate e => e.depth + 1
  | binary _ l r => max l.depth r.depth + 1
  | apply f args => max f.depth (depthList args) + 1
  | letIn _ b e => max b.depth e.depth + 1

/-- The largest depth among some expressions. -/
def depthList : List Expr → Nat
  | [] => 0
  | e :: es => max e.depth (depthList es)

end

end Expr

end Calx
