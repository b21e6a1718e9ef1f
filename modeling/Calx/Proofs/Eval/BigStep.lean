import Calx.Proofs.Eval.Outcome

/-!
# Big-step semantics

The rules of the language as relations: what an expression, some arguments, a statement and a
program end in, values and failures alike. Scoping is dynamic: the body of a function is evaluated
under the environment of the call.

`Evaluates` is what `eval` computes when neither the depth nor the watching cuts it short
(`evaluates_iff_endsIn`), and the same holds of `ExecutesAll` and `runAll`. A run that is cut short
says so, so a run that says anything else has found the result (`evaluates_of_outcome`).
-/

namespace Calx

/-! ## The rules -/

section Rules

variable [Machine]

mutual

/-- What an expression ends in under an environment. -/
inductive Evaluates : Environment → Expr → Except Failure Value → Prop where
  | number {env : Environment} (x : Float) : Evaluates env (.number x) (.ok (.number x))
  | text {env : Environment} (s : String) : Evaluates env (.text s) (.ok (.text s))
  | var {env : Environment} {n : String} {v : Value} (h : env.lookup? n = some v) :
      Evaluates env (.var n) (.ok v)
  | undefined {env : Environment} {n : String} (h : env.lookup? n = none) :
      Evaluates env (.var n) (.error (.error (.undefinedVariable n)))
  | negate {env : Environment} {e : Expr} {v : Value} (h : Evaluates env e (.ok v)) :
      Evaluates env (.negate e) v.neg
  | negateFails {env : Environment} {e : Expr} {err : Failure} (h : Evaluates env e (.error err)) :
      Evaluates env (.negate e) (.error err)
  | binary {env : Environment} {op : BinaryOperator} {l r : Expr} {x y : Value}
      (hl : Evaluates env l (.ok x)) (hr : Evaluates env r (.ok y)) :
      Evaluates env (.binary op l r) (op.apply x y)
  | leftFails {env : Environment} {op : BinaryOperator} {l r : Expr} {err : Failure}
      (hl : Evaluates env l (.error err)) : Evaluates env (.binary op l r) (.error err)
  | rightFails {env : Environment} {op : BinaryOperator} {l r : Expr} {x : Value} {err : Failure}
      (hl : Evaluates env l (.ok x)) (hr : Evaluates env r (.error err)) :
      Evaluates env (.binary op l r) (.error err)
  | letIn {env : Environment} {n : String} {b body : Expr} {v : Value} {res : Except Failure Value}
      (hb : Evaluates env b (.ok v)) (hbody : Evaluates (env.bind n v) body res) :
      Evaluates env (.letIn n b body) res
  | boundFails {env : Environment} {n : String} {b body : Expr} {err : Failure}
      (hb : Evaluates env b (.error err)) : Evaluates env (.letIn n b body) (.error err)
  | calleeFails {env : Environment} {callee : Expr} {args : List Expr} {err : Failure}
      (hc : Evaluates env callee (.error err)) : Evaluates env (.apply callee args) (.error err)
  | uncallable {env : Environment} {callee : Expr} {args : List Expr} {v : Value}
      (hc : Evaluates env callee (.ok v)) (hv : ∀ f, v ≠ .function f) :
      Evaluates env (.apply callee args) (.error (.error (.uncallable v.type)))
  | wrongArity {env : Environment} {callee : Expr} {args : List Expr} {f : Function}
      (hc : Evaluates env callee (.ok (.function f))) (hlen : args.length ≠ f.params.length) :
      Evaluates env (.apply callee args)
        (.error (.error (.wrongArity f.params.length args.length)))
  | argumentFails {env : Environment} {callee : Expr} {args : List Expr} {f : Function}
      {err : Failure} (hc : Evaluates env callee (.ok (.function f)))
      (hlen : args.length = f.params.length) (hargs : EvaluatesAll env args (.error err)) :
      Evaluates env (.apply callee args) (.error err)
  | apply {env : Environment} {callee : Expr} {args : List Expr} {f : Function} {vs : List Value}
      {res : Except Failure Value} (hc : Evaluates env callee (.ok (.function f)))
      (hlen : args.length = f.params.length) (hargs : EvaluatesAll env args (.ok vs))
      (hbody : Evaluates (env.bindAll (f.params.zip vs)) f.body res) :
      Evaluates env (.apply callee args) res

/-- What some expressions end in, from left to right, under one environment. -/
inductive EvaluatesAll : Environment → List Expr → Except Failure (List Value) → Prop where
  | nil {env : Environment} : EvaluatesAll env [] (.ok [])
  | cons {env : Environment} {e : Expr} {es : List Expr} {v : Value} {vs : List Value}
      (he : Evaluates env e (.ok v)) (hes : EvaluatesAll env es (.ok vs)) :
      EvaluatesAll env (e :: es) (.ok (v :: vs))
  | headFails {env : Environment} {e : Expr} {es : List Expr} {err : Failure}
      (he : Evaluates env e (.error err)) : EvaluatesAll env (e :: es) (.error err)
  | tailFails {env : Environment} {e : Expr} {es : List Expr} {v : Value} {err : Failure}
      (he : Evaluates env e (.ok v)) (hes : EvaluatesAll env es (.error err)) :
      EvaluatesAll env (e :: es) (.error err)

end

/-- What a statement ends in: its value and the environment after it. -/
inductive Executes : Environment → Stmt → Except Failure (Value × Environment) → Prop where
  | expr {env : Environment} {e : Expr} {v : Value} (h : Evaluates env e (.ok v)) :
      Executes env (.expr e) (.ok (v, env))
  | exprFails {env : Environment} {e : Expr} {err : Failure} (h : Evaluates env e (.error err)) :
      Executes env (.expr e) (.error err)
  | define {env : Environment} (n : String) (ps : List String) (body : Expr) :
      Executes env (.define n ps body) (.ok (.unit, env.bind n (.function ⟨n, ps, body⟩)))
  | bind {env : Environment} {n : String} {e : Expr} {v : Value} (h : Evaluates env e (.ok v)) :
      Executes env (.bind n e) (.ok (.unit, env.bind n v))
  | bindFails {env : Environment} {n : String} {e : Expr} {err : Failure}
      (h : Evaluates env e (.error err)) : Executes env (.bind n e) (.error err)

/-- What a program ends in: the values of its statements and the environment after them. -/
inductive ExecutesAll :
    Environment → Program → Except Failure (List Value × Environment) → Prop where
  | nil {env : Environment} : ExecutesAll env [] (.ok ([], env))
  | cons {env next final : Environment} {s : Stmt} {p : Program} {v : Value} {vs : List Value}
      (hs : Executes env s (.ok (v, next))) (hp : ExecutesAll next p (.ok (vs, final))) :
      ExecutesAll env (s :: p) (.ok (v :: vs, final))
  | headFails {env : Environment} {s : Stmt} {p : Program} {err : Failure}
      (hs : Executes env s (.error err)) : ExecutesAll env (s :: p) (.error err)
  | tailFails {env next : Environment} {s : Stmt} {p : Program} {v : Value} {err : Failure}
      (hs : Executes env s (.ok (v, next))) (hp : ExecutesAll next p (.error err)) :
      ExecutesAll env (s :: p) (.error err)

end Rules

/-! ## Limits -/

/-- The limits of a run are at least `bound`. -/
def Run.Ample (bound : Nat) (w : Run.Watch) (depth : Nat) : Prop :=
  bound ≤ depth ∧ (w.tracing = true → bound ≤ w.writing)

theorem Run.Ample.mono {m n : Nat} {w : Run.Watch} {depth : Nat} (h : Run.Ample n w depth)
    (hle : m ≤ n) : Run.Ample m w depth :=
  ⟨Nat.le_trans hle h.1, fun ht => Nat.le_trans hle (h.2 ht)⟩

/-- A computation ends in `res` whenever its limits are large enough. -/
def EndsIn {α : Type} (run : Run.Watch → Nat → Run α) (res : Except Failure α) : Prop :=
  ∃ bound, ∀ w depth, Run.Ample bound w depth → (run w depth).outcome = res

namespace EndsIn

variable {α β : Type} {run : Run.Watch → Nat → Run α} {f : α → Run.Watch → Nat → Run β}

theorem unique {res res' : Except Failure α} (h : EndsIn run res) (h' : EndsIn run res') :
    res = res' := by
  obtain ⟨m, hm⟩ := h
  obtain ⟨n, hn⟩ := h'
  have hample : Run.Ample (max m n) ⟨false, 0⟩ (max m n) := ⟨Nat.le_refl _, nofun⟩
  exact (hm _ _ (hample.mono (Nat.le_max_left m n))).symm.trans
    (hn _ _ (hample.mono (Nat.le_max_right m n)))

/-- Some run of the computation ends the same way. -/
theorem run_eq {res : Except Failure α} (h : EndsIn run res) :
    ∃ w depth, (run w depth).outcome = res := by
  obtain ⟨bound, hb⟩ := h
  exact ⟨⟨false, 0⟩, bound, hb _ _ ⟨Nat.le_refl _, nofun⟩⟩

theorem of_forall {res : Except Failure α} (h : ∀ w depth, (run w depth).outcome = res) :
    EndsIn run res :=
  ⟨0, fun w depth _ => h w depth⟩

theorem bind_ok {a : α} {res : Except Failure β} (h : EndsIn run (.ok a)) (hf : EndsIn (f a) res) :
    EndsIn (fun w depth => run w depth >>= fun x => f x w depth) res := by
  obtain ⟨m, hm⟩ := h
  obtain ⟨n, hn⟩ := hf
  refine ⟨max m n, fun w depth hample => ?_⟩
  rw [Run.outcome_bind_ok (hm w depth (hample.mono (Nat.le_max_left m n)))]
  exact hn w depth (hample.mono (Nat.le_max_right m n))

theorem bind_error {err : Failure} (h : EndsIn run (.error err)) :
    EndsIn (fun w depth => run w depth >>= fun x => f x w depth) (.error err) := by
  obtain ⟨m, hm⟩ := h
  exact ⟨m, fun w depth hample => Run.outcome_bind_error (hm w depth hample) _⟩

/-- Reporting takes no more than room to write out the event. -/
theorem report (e : Event) : EndsIn (fun w _ => Run.report w e) (.ok ()) :=
  ⟨e.depth, fun _ _ hample => Run.outcome_report_of_le hample.2⟩

/-- One level of nesting more. -/
theorem outer {inner : Run.Watch → Nat → Run α} {res : Except Failure α}
    (heq : ∀ w depth, run w (depth + 1) = inner w depth) (h : EndsIn inner res) :
    EndsIn run res := by
  obtain ⟨n, hn⟩ := h
  refine ⟨n + 1, fun w depth hample => ?_⟩
  obtain ⟨d, rfl⟩ : ∃ d, depth = d + 1 := ⟨depth - 1, by have := hample.1; omega⟩
  rw [heq]
  exact hn w d ⟨Nat.le_of_succ_le_succ hample.1, fun ht => Nat.le_of_succ_le (hample.2 ht)⟩

end EndsIn

/-! ## Every derivation is computed -/

section Complete

variable [Machine]

/-- Entering an expression: its report, and then what is one level further in. -/
theorem endsIn_eval {env : Environment} {e : Expr} {inner : Run.Watch → Nat → Run Value}
    {res : Except Failure Value}
    (heq : ∀ w depth, eval w (depth + 1) env e =
      Run.report w (.expression e) >>= fun _ => inner w depth)
    (h : EndsIn inner res) : EndsIn (fun w depth => eval w depth env e) res :=
  EndsIn.outer heq ((EndsIn.report _).bind_ok h)

/-- What some arguments end in, as a run. -/
def argumentsRun (env : Environment) (args : List Expr) (w : Run.Watch) (depth : Nat) :
    Run (List Value) :=
  .ofExcept (evaluateAll (eval w depth env) args)

theorem endsIn_arguments_cons {env : Environment} {e : Expr} {es : List Expr} {v : Value}
    {res : Except Failure (List Value)} (he : EndsIn (fun w depth => eval w depth env e) (.ok v))
    (hes : EndsIn (argumentsRun env es) res) :
    EndsIn (argumentsRun env (e :: es)) (res.map (v :: ·)) := by
  obtain ⟨m, hm⟩ := he
  obtain ⟨n, hn⟩ := hes
  refine ⟨max m n, fun w depth hample => ?_⟩
  rw [← hn w depth (hample.mono (Nat.le_max_right m n))]
  exact evaluateAll_cons_ok (hm w depth (hample.mono (Nat.le_max_left m n)))

theorem endsIn_arguments_cons_error {env : Environment} {e : Expr} {es : List Expr} {err : Failure}
    (he : EndsIn (fun w depth => eval w depth env e) (.error err)) :
    EndsIn (argumentsRun env (e :: es)) (.error err) := by
  obtain ⟨m, hm⟩ := he
  exact ⟨m, fun w depth hample => evaluateAll_cons_error (hm w depth hample)⟩

theorem endsIn_bindArguments {env : Environment} {params : List String} {args : List Expr}
    {res : Except Failure (List Value)} (hlen : args.length = params.length)
    (h : EndsIn (argumentsRun env args) res) :
    EndsIn (fun w depth => bindArguments (eval w depth env) (params.zip args) env)
      (res.map fun vs => env.bindAll (params.zip vs)) := by
  obtain ⟨n, hn⟩ := h
  refine ⟨n, fun w depth hample => ?_⟩
  rw [outcome_bindArguments params args env hlen, ← hn w depth hample]
  rfl

mutual

theorem Evaluates.endsIn : ∀ {env : Environment} {e : Expr} {res : Except Failure Value},
    Evaluates env e res → EndsIn (fun w depth => eval w depth env e) res
  | _, _, _, .number _ | _, _, _, .text _ =>
    endsIn_eval (fun _ _ => rfl) (.of_forall fun _ _ => rfl)
  | _, _, _, .var h | _, _, _, .undefined h => by
    refine endsIn_eval (fun _ _ => rfl) (.of_forall fun _ _ => ?_)
    simp only [h]
    rfl
  | _, _, _, .negate h =>
    endsIn_eval (fun _ _ => rfl) (h.endsIn.bind_ok (.of_forall fun _ _ => rfl))
  | _, _, _, .negateFails h => endsIn_eval (fun _ _ => rfl) h.endsIn.bind_error
  | _, _, _, .binary hl hr =>
    endsIn_eval (fun _ _ => rfl) (hl.endsIn.bind_ok (hr.endsIn.bind_ok (.of_forall fun _ _ => rfl)))
  | _, _, _, .leftFails hl => endsIn_eval (fun _ _ => rfl) hl.endsIn.bind_error
  | _, _, _, .rightFails hl hr =>
    endsIn_eval (fun _ _ => rfl) (hl.endsIn.bind_ok hr.endsIn.bind_error)
  | _, _, _, .letIn hb hbody => endsIn_eval (fun _ _ => rfl) (hb.endsIn.bind_ok hbody.endsIn)
  | _, _, _, .boundFails hb => endsIn_eval (fun _ _ => rfl) hb.endsIn.bind_error
  | _, _, _, .calleeFails hc => endsIn_eval (fun _ _ => rfl) hc.endsIn.bind_error
  | _, _, _, @Evaluates.uncallable _ _ _ _ v hc hv => by
    refine endsIn_eval (fun _ _ => rfl) (hc.endsIn.bind_ok (.of_forall fun _ _ => ?_))
    cases v with
    | function f => exact absurd rfl (hv f)
    | _ => rfl
  | _, _, _, .wrongArity hc hlen => by
    refine endsIn_eval (fun _ _ => rfl) (hc.endsIn.bind_ok (.of_forall fun _ _ => ?_))
    simp only [if_neg hlen]
    rfl
  | _, _, _, .argumentFails hc hlen hargs => by
    refine endsIn_eval (fun _ _ => rfl) (hc.endsIn.bind_ok ?_)
    simp only [if_pos hlen]
    exact (endsIn_bindArguments hlen hargs.endsIn).bind_error
  | _, _, _, .apply hc hlen hargs hbody => by
    refine endsIn_eval (fun _ _ => rfl) (hc.endsIn.bind_ok ?_)
    simp only [if_pos hlen]
    exact (endsIn_bindArguments hlen hargs.endsIn).bind_ok ((EndsIn.report _).bind_ok hbody.endsIn)

theorem EvaluatesAll.endsIn : ∀ {env : Environment} {es : List Expr}
    {res : Except Failure (List Value)}, EvaluatesAll env es res → EndsIn (argumentsRun env es) res
  | _, _, _, .nil => .of_forall fun _ _ => rfl
  | _, _, _, .cons he hes => endsIn_arguments_cons he.endsIn hes.endsIn
  | _, _, _, .headFails he => endsIn_arguments_cons_error he.endsIn
  | _, _, _, .tailFails he hes => endsIn_arguments_cons he.endsIn hes.endsIn

end

theorem Executes.endsIn {env : Environment} {s : Stmt} {res : Except Failure (Value × Environment)}
    (h : Executes env s res) : EndsIn (fun w depth => runStmt w depth env s) res := by
  refine EndsIn.bind_ok (EndsIn.report (.statement s)) ?_
  cases h with
  | expr h | bind h => exact h.endsIn.bind_ok (.of_forall fun _ _ => rfl)
  | define => exact .of_forall fun _ _ => rfl
  | exprFails h | bindFails h => exact h.endsIn.bind_error

theorem ExecutesAll.endsIn {env : Environment} {p : Program}
    {res : Except Failure (List Value × Environment)} (h : ExecutesAll env p res) :
    EndsIn (fun w depth => runAll w depth env p) res := by
  induction h with
  | nil => exact .of_forall fun _ _ => rfl
  | cons hs _ ih => exact hs.endsIn.bind_ok (ih.bind_ok (.of_forall fun _ _ => rfl))
  | headFails hs => exact hs.endsIn.bind_error
  | tailFails hs _ ih => exact hs.endsIn.bind_ok ih.bind_error

end Complete

/-! ## Everything computed has a derivation -/

section Sound

/-- That a failure is not the depth does not depend on what could have been computed. -/
theorem error_ne_tooDeep {α β : Type} {err : Failure}
    (h : (.error err : Except Failure α) ≠ .error .tooDeep) :
    (.error err : Except Failure β) ≠ .error .tooDeep := by
  rintro ⟨_⟩
  exact h rfl

theorem ok_ne_tooDeep {α : Type} {a : α} : (.ok a : Except Failure α) ≠ .error .tooDeep := by
  rintro ⟨_⟩

/-- What comes after a report, in a run that is not cut short. -/
theorem outcome_of_report_bind {α : Type} {w : Run.Watch} {ev : Event} {f : Unit → Run α}
    {res : Except Failure α} (h : (Run.report w ev >>= f).outcome = res)
    (hres : res ≠ .error .tooDeep) : (f ()).outcome = res := by
  rcases Run.outcome_report w ev with hrep | hrep
  · rwa [Run.outcome_bind_ok hrep] at h
  · rw [Run.outcome_bind_error hrep] at h
    exact absurd h.symm hres

variable [Machine] {w : Run.Watch}

theorem evaluatesAll_of_evaluateAll {evaluate : Expr → Run Value} {env : Environment}
    (h : ∀ e res, (evaluate e).outcome = res → res ≠ .error .tooDeep → Evaluates env e res)
    {args : List Expr} {res : Except Failure (List Value)} (heq : evaluateAll evaluate args = res)
    (hres : res ≠ .error .tooDeep) : EvaluatesAll env args res := by
  induction args generalizing res with
  | nil =>
    subst heq
    exact .nil
  | cons e args ih =>
    cases hv : (evaluate e).outcome with
    | error err =>
      obtain rfl := (evaluateAll_cons_error hv).symm.trans heq
      exact .headFails (h e _ hv (error_ne_tooDeep hres))
    | ok v =>
      rw [evaluateAll_cons_ok hv] at heq
      have he : Evaluates env e (.ok v) := h e _ hv nofun
      cases hvs : evaluateAll evaluate args with
      | error err =>
        obtain rfl : Except.error err = res := by rw [← heq, hvs]; rfl
        exact .tailFails he (ih hvs hres)
      | ok vs =>
        obtain rfl : Except.ok (v :: vs) = res := by rw [← heq, hvs]; rfl
        exact .cons he (ih hvs nofun)

/-- A call whose parts are not cut short. -/
theorem evaluates_of_call {depth : Nat} {env : Environment} {callee : Expr} {args : List Expr}
    {f : Function} {res : Except Failure Value} (hlen : args.length = f.params.length)
    (ih : ∀ {env : Environment} {e : Expr} {res : Except Failure Value},
      (eval w depth env e).outcome = res → res ≠ .error .tooDeep → Evaluates env e res)
    (hc : Evaluates env callee (.ok (.function f)))
    (h : (bindArguments (eval w depth env) (f.params.zip args) env >>= fun inner =>
      Run.report w (.call f) >>= fun _ => eval w depth inner f.body).outcome = res)
    (hres : res ≠ .error .tooDeep) : Evaluates env (.apply callee args) res := by
  have hbind := @outcome_bindArguments (eval w depth env) f.params args env hlen
  cases hargs : evaluateAll (eval w depth env) args with
  | error err =>
    rw [hargs] at hbind
    obtain rfl := (Run.outcome_bind_error hbind _).symm.trans h
    exact .argumentFails hc hlen
      (evaluatesAll_of_evaluateAll (fun _ _ => ih) hargs (error_ne_tooDeep hres))
  | ok vs =>
    rw [hargs] at hbind
    rw [Run.outcome_bind_ok hbind] at h
    have hall : EvaluatesAll env args (.ok vs) :=
      evaluatesAll_of_evaluateAll (fun _ _ => ih) hargs nofun
    exact .apply hc hlen hall (ih (outcome_of_report_bind h hres) hres)

/-- A run that does not say that it was cut short has found the result. -/
theorem evaluates_of_outcome {depth : Nat} {env : Environment} {e : Expr}
    {res : Except Failure Value} (h : (eval w depth env e).outcome = res)
    (hres : res ≠ .error .tooDeep) : Evaluates env e res := by
  induction depth generalizing env e res with
  | zero => exact absurd h.symm hres
  | succ depth ih =>
    unfold eval at h
    replace h := outcome_of_report_bind h hres
    cases e with
    | number x => exact h ▸ .number x
    | text s => exact h ▸ .text s
    | var n =>
      cases hn : env.lookup? n with
      | none =>
        simp only [hn] at h
        exact h ▸ .undefined hn
      | some v =>
        simp only [hn] at h
        exact h ▸ .var hn
    | negate e =>
      rcases Run.outcome_bind_cases h with ⟨err, hv, rfl⟩ | ⟨v, hv, rfl⟩
      · exact .negateFails (ih hv hres)
      · exact .negate (ih hv nofun)
    | binary op l r =>
      rcases Run.outcome_bind_cases h with ⟨err, hx, rfl⟩ | ⟨x, hx, h⟩
      · exact .leftFails (ih hx hres)
      · rcases Run.outcome_bind_cases h with ⟨err, hy, rfl⟩ | ⟨y, hy, rfl⟩
        · exact .rightFails (ih hx nofun) (ih hy hres)
        · exact .binary (ih hx nofun) (ih hy nofun)
    | letIn n b body =>
      rcases Run.outcome_bind_cases h with ⟨err, hv, rfl⟩ | ⟨v, hv, h⟩
      · exact .boundFails (ih hv hres)
      · exact .letIn (ih hv nofun) (ih h hres)
    | apply callee args =>
      rcases Run.outcome_bind_cases h with ⟨err, hc, rfl⟩ | ⟨v, hc, h⟩
      · exact .calleeFails (ih hc hres)
      · have hcallee : Evaluates env callee (.ok v) := ih hc nofun
        cases v with
        | function f =>
          by_cases hlen : args.length = f.params.length
          · simp only [if_pos hlen] at h
            exact evaluates_of_call hlen ih hcallee h hres
          · simp only [if_neg hlen] at h
            exact h ▸ .wrongArity hcallee hlen
        | _ => exact h ▸ .uncallable hcallee nofun

theorem executes_of_outcome {depth : Nat} {env : Environment} {s : Stmt}
    {res : Except Failure (Value × Environment)} (h : (runStmt w depth env s).outcome = res)
    (hres : res ≠ .error .tooDeep) : Executes env s res := by
  unfold runStmt at h
  replace h := outcome_of_report_bind h hres
  cases s with
  | expr e =>
    rcases Run.outcome_bind_cases h with ⟨err, hv, rfl⟩ | ⟨v, hv, rfl⟩
    · exact .exprFails (evaluates_of_outcome hv (error_ne_tooDeep hres))
    · exact .expr (evaluates_of_outcome hv nofun)
  | define n ps body => exact h ▸ .define n ps body
  | bind n e =>
    rcases Run.outcome_bind_cases h with ⟨err, hv, rfl⟩ | ⟨v, hv, rfl⟩
    · exact .bindFails (evaluates_of_outcome hv (error_ne_tooDeep hres))
    · exact .bind (evaluates_of_outcome hv nofun)

theorem executesAll_of_outcome {depth : Nat} {env : Environment} {p : Program}
    {res : Except Failure (List Value × Environment)} (h : (runAll w depth env p).outcome = res)
    (hres : res ≠ .error .tooDeep) : ExecutesAll env p res := by
  induction p generalizing env res with
  | nil => exact h ▸ .nil
  | cons s p ih =>
    rcases Run.outcome_bind_cases h with ⟨err, hs, rfl⟩ | ⟨⟨v, next⟩, hs, h⟩
    · exact .headFails (executes_of_outcome hs (error_ne_tooDeep hres))
    · have hs := executes_of_outcome hs nofun
      rcases Run.outcome_bind_cases h with ⟨err, hp, rfl⟩ | ⟨⟨vs, final⟩, hp, rfl⟩
      · exact .tailFails hs (ih hp hres)
      · exact .cons hs (ih hp nofun)

end Sound

/-! ## The evaluator and the rules -/

variable [Machine]

mutual

/-- No rule ends in having gone too deep. -/
theorem Evaluates.ne_tooDeep : ∀ {env : Environment} {e : Expr} {res : Except Failure Value},
    Evaluates env e res → res ≠ .error .tooDeep
  | _, _, _, .number _ | _, _, _, .text _ | _, _, _, .var _ | _, _, _, .undefined _
  | _, _, _, .uncallable _ _ | _, _, _, .wrongArity _ _ => nofun
  | _, _, _, .negate _ => Value.neg_ne_tooDeep _
  | _, _, _, .binary _ _ => BinaryOperator.apply_ne_tooDeep _ _ _
  | _, _, _, .negateFails h | _, _, _, .leftFails h | _, _, _, .rightFails _ h
  | _, _, _, .boundFails h | _, _, _, .calleeFails h | _, _, _, .letIn _ h
  | _, _, _, .apply _ _ _ h => h.ne_tooDeep
  | _, _, _, .argumentFails _ _ h => error_ne_tooDeep h.ne_tooDeep

theorem EvaluatesAll.ne_tooDeep : ∀ {env : Environment} {es : List Expr}
    {res : Except Failure (List Value)}, EvaluatesAll env es res → res ≠ .error .tooDeep
  | _, _, _, .nil | _, _, _, .cons _ _ => nofun
  | _, _, _, .headFails h => error_ne_tooDeep h.ne_tooDeep
  | _, _, _, .tailFails _ h => h.ne_tooDeep

end

theorem Executes.ne_tooDeep {env : Environment} {s : Stmt}
    {res : Except Failure (Value × Environment)} (h : Executes env s res) :
    res ≠ .error .tooDeep := by
  cases h with
  | exprFails h | bindFails h => exact error_ne_tooDeep h.ne_tooDeep
  | _ => exact nofun

theorem ExecutesAll.ne_tooDeep {env : Environment} {p : Program}
    {res : Except Failure (List Value × Environment)} (h : ExecutesAll env p res) :
    res ≠ .error .tooDeep := by
  induction h with
  | nil | cons => exact nofun
  | headFails hs => exact error_ne_tooDeep hs.ne_tooDeep
  | tailFails _ _ ih => exact ih

theorem Evaluates.unique {env : Environment} {e : Expr} {res res' : Except Failure Value}
    (h : Evaluates env e res) (h' : Evaluates env e res') : res = res' :=
  h.endsIn.unique h'.endsIn

theorem EvaluatesAll.unique {env : Environment} {es : List Expr}
    {res res' : Except Failure (List Value)} (h : EvaluatesAll env es res)
    (h' : EvaluatesAll env es res') : res = res' :=
  h.endsIn.unique h'.endsIn

theorem Executes.unique {env : Environment} {s : Stmt}
    {res res' : Except Failure (Value × Environment)} (h : Executes env s res)
    (h' : Executes env s res') : res = res' :=
  h.endsIn.unique h'.endsIn

theorem ExecutesAll.unique {env : Environment} {p : Program}
    {res res' : Except Failure (List Value × Environment)} (h : ExecutesAll env p res)
    (h' : ExecutesAll env p res') : res = res' :=
  h.endsIn.unique h'.endsIn

theorem evaluates_iff {env : Environment} {e : Expr} {res : Except Failure Value} :
    Evaluates env e res ↔
      res ≠ .error .tooDeep ∧ EndsIn (fun w depth => eval w depth env e) res := by
  constructor
  · exact fun h => ⟨h.ne_tooDeep, h.endsIn⟩
  · rintro ⟨hres, h⟩
    obtain ⟨w, depth, heq⟩ := h.run_eq
    exact evaluates_of_outcome heq hres

theorem executesAll_iff {env : Environment} {p : Program}
    {res : Except Failure (List Value × Environment)} : ExecutesAll env p res ↔
      res ≠ .error .tooDeep ∧ EndsIn (fun w depth => runAll w depth env p) res := by
  constructor
  · exact fun h => ⟨h.ne_tooDeep, h.endsIn⟩
  · rintro ⟨hres, h⟩
    obtain ⟨w, depth, heq⟩ := h.run_eq
    exact executesAll_of_outcome heq hres

/-- A program's value is the last of its statements' values. -/
theorem outcome_runFrom (w : Run.Watch) (depth : Nat) (last : Value) (env : Environment)
    (p : Program) : (runFrom w depth last env p).outcome =
      (runAll w depth env p).outcome.map fun x => (x.1.getLastD last, x.2) := by
  rw [runFrom_eq_bind]
  cases h : (runAll w depth env p).outcome with
  | error err => exact Run.outcome_bind_error h _
  | ok x => exact Run.outcome_bind_ok h _

/-- A program fails for its last value exactly if it does for all of them. -/
theorem outcome_runProgram_eq_error_iff {w : Run.Watch} {depth : Nat} {env : Environment}
    {p : Program} {err : Failure} : (runProgram w depth env p).outcome = .error err ↔
      (runAll w depth env p).outcome = .error err := by
  rw [runProgram, outcome_runFrom]
  cases (runAll w depth env p).outcome <;> simp [Except.map]

/-- **The evaluator is the big-step semantics.** With limits large enough an evaluation ends in a
result exactly if the rules derive it, and they derive at most one; under any limits it ends in that
result or in having gone too deep. The environment of a call is that of the caller with the
parameters on top, the last one of a name first. Programs run by the rules likewise. -/
theorem evaluates_iff_endsIn :
    (∀ env e res, Evaluates env e res ↔
      res ≠ .error .tooDeep ∧ EndsIn (fun w depth => eval w depth env e) res) ∧
    (∀ env e res res', Evaluates env e res → Evaluates env e res' → res = res') ∧
    (∀ w depth env e, (eval w depth env e).outcome = .error .tooDeep ∨
      Evaluates env e (eval w depth env e).outcome) ∧
    (∀ env : Environment, ∀ bs n,
      (env.bindAll bs).lookup? n = (bs.reverse.lookup n).or (env.lookup? n)) ∧
    (∀ env p res, ExecutesAll env p res ↔
      res ≠ .error .tooDeep ∧ EndsIn (fun w depth => runAll w depth env p) res) ∧
    ∀ w depth env p, (runProgram w depth env p).outcome =
      (runAll w depth env p).outcome.map fun x => (x.1.getLastD .unit, x.2) := by
  refine ⟨fun _ _ _ => evaluates_iff, fun _ _ _ _ => Evaluates.unique, fun w depth env e => ?_,
    Environment.lookup?_bindAll, fun _ _ _ => executesAll_iff,
    fun w depth env p => outcome_runFrom w depth .unit env p⟩
  by_cases hdeep : (eval w depth env e).outcome = .error .tooDeep
  · exact .inl hdeep
  · exact .inr (evaluates_of_outcome rfl hdeep)

end Calx
