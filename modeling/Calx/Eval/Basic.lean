import Calx.Eval.Run
import Calx.Environment

/-!
# Evaluation

`eval w depth env e` evaluates an expression under an environment, through at most `depth` nested
evaluations. Scoping is dynamic: the body of a function sees the bindings of its caller, and the
parameters on top of them. A call looks at its callee, then at the number of its arguments, and only
then evaluates the arguments, from left to right, each under the environment of the caller.

`runProgram` and `runAll` thread the environment through the statements of a program; they differ
only in the values they keep.
-/

namespace Calx

variable [Machine]

/-- Binds each name to the value of its expression. All the expressions are evaluated by `evaluate`,
which does not see the new bindings. -/
def bindArguments (evaluate : Expr → Run Value) : List (String × Expr) → Environment →
    Run Environment
  | [], env => pure env
  | (name, e) :: rest, env => do
    let v ← evaluate e
    bindArguments evaluate rest (env.bind name v)

/-- Evaluates an expression. -/
def eval (w : Run.Watch) : (depth : Nat) → Environment → Expr → Run Value
  | 0, _, _ => .fail .tooDeep
  | depth + 1, env, e => do
    Run.report w (.expression e)
    match e with
    | .number x => return .number x
    | .text s => return .text s
    | .negate e =>
      let v ← eval w depth env e
      .ofExcept v.neg
    | .binary op l r =>
      let x ← eval w depth env l
      let y ← eval w depth env r
      .ofExcept (op.apply x y)
    | .var n =>
      match env.lookup? n with
      | some v => return v
      | none => .fail (.error (.undefinedVariable n))
    | .letIn n b body =>
      let v ← eval w depth env b
      eval w depth (env.bind n v) body
    | .apply callee args =>
      match ← eval w depth env callee with
      | .function f =>
        if args.length = f.params.length then
          let inner ← bindArguments (eval w depth env) (f.params.zip args) env
          Run.report w (.call f)
          eval w depth inner f.body
        else .fail (.error (.wrongArity f.params.length args.length))
      | v => .fail (.error (.uncallable v.type))

/-- Runs one statement: its value and the environment after it. -/
def runStmt (w : Run.Watch) (depth : Nat) (env : Environment) (s : Stmt) :
    Run (Value × Environment) := do
  Run.report w (.statement s)
  match s with
  | .expr e => return (← eval w depth env e, env)
  | .define n ps body => return (.unit, env.bind n (.function ⟨n, ps, body⟩))
  | .bind n e => return (.unit, env.bind n (← eval w depth env e))

/-- Runs a program for the value of its last statement, with `last` as the value so far. -/
def runFrom (w : Run.Watch) (depth : Nat) (last : Value) : Environment → Program →
    Run (Value × Environment)
  | env, [] => return (last, env)
  | env, s :: rest => do
    let (v, next) ← runStmt w depth env s
    runFrom w depth v next rest

/-- Runs a program: the value of its last statement, and the environment after it. -/
def runProgram (w : Run.Watch) (depth : Nat) (env : Environment) (p : Program) :
    Run (Value × Environment) :=
  runFrom w depth .unit env p

/-- Runs a program: the value of every statement, and the environment after it. -/
def runAll (w : Run.Watch) (depth : Nat) : Environment → Program → Run (List Value × Environment)
  | env, [] => return ([], env)
  | env, s :: rest => do
    let (v, next) ← runStmt w depth env s
    let (vs, final) ← runAll w depth next rest
    return (v :: vs, final)

end Calx
