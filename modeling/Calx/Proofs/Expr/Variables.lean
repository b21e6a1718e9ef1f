import Mathlib.Data.Set.Defs
import Calx.Program.Basic

/-!
# The variables of an expression

The names that an expression asks the environment for: those that stand in it as variables, at any
depth. A name that is only bound, by a `let` or as a parameter, is none of them.
`Expr.MentionsOnly S e` says that they are all in `S`.
-/

namespace Calx

namespace Expr

mutual

/-- The names that stand in an expression as variables. -/
def vars : Expr → List String
  | number _ | text _ => []
  | negate e => e.vars
  | binary _ l r => l.vars ++ r.vars
  | var n => [n]
  | apply f args => f.vars ++ varsList args
  | letIn _ b e => b.vars ++ e.vars

/-- The names that stand in some expressions as variables. -/
def varsList : List Expr → List String
  | [] => []
  | e :: es => e.vars ++ varsList es

end

theorem varsList_eq_flatMap (es : List Expr) : varsList es = es.flatMap vars := by
  induction es with
  | nil => rfl
  | cons e es ih => rw [varsList, ih, List.flatMap_cons]

/-- Only names of `S` stand in the expression as variables. -/
def MentionsOnly (S : Set String) (e : Expr) : Prop :=
  ∀ n ∈ e.vars, n ∈ S

section MentionsOnly

variable {S : Set String}

theorem mentionsOnly_var {n : String} : (var n).MentionsOnly S ↔ n ∈ S := by
  simp [MentionsOnly, vars]

theorem mentionsOnly_negate {e : Expr} : (negate e).MentionsOnly S ↔ e.MentionsOnly S := Iff.rfl

theorem mentionsOnly_binary {op : BinaryOperator} {l r : Expr} :
    (binary op l r).MentionsOnly S ↔ l.MentionsOnly S ∧ r.MentionsOnly S := by
  simp only [MentionsOnly, vars, List.mem_append, or_imp, forall_and]

theorem mentionsOnly_letIn {n : String} {b e : Expr} :
    (letIn n b e).MentionsOnly S ↔ b.MentionsOnly S ∧ e.MentionsOnly S := by
  simp only [MentionsOnly, vars, List.mem_append, or_imp, forall_and]

theorem mentionsOnly_apply {f : Expr} {args : List Expr} : (apply f args).MentionsOnly S ↔
    f.MentionsOnly S ∧ ∀ e ∈ args, e.MentionsOnly S := by
  simp only [MentionsOnly, vars, varsList_eq_flatMap, List.mem_append, or_imp, forall_and,
    List.mem_flatMap, forall_exists_index, and_imp]
  exact and_congr_right fun _ => ⟨fun h e he n hn => h n e he hn, fun h n e he hn => h e he n hn⟩

end MentionsOnly

end Expr

/-- The names that stand in a statement as variables, those in the body of a function included. -/
def Stmt.vars : Stmt → List String
  | expr e | define _ _ e | bind _ e => e.vars

/-- The names that stand in a program as variables. -/
def Program.vars (p : Program) : List String :=
  p.flatMap Stmt.vars

end Calx
