import Calx.Eval.Basic

/-!
# What runs end in

Runs are a lawful monad, and the outcome and the events of a run that is put together from others
are known from theirs. Watching a run can only make it fail with `tooDeep`, and the operators never
do. `outcome_bindArguments` says that binding the arguments of a call one after the other is the same
as evaluating all of them first, `runFrom_append` that a program goes on where its first part ends.
-/

namespace Calx

namespace Run

variable {α β γ : Type}

theorem bind_eq (r : Run α) (f : α → Run β) : r >>= f = r.andThen f := rfl

theorem id_map_eq (r : Run α) : id <$> r = r := by
  obtain ⟨trace, _ | a⟩ := r
  · rfl
  · show (⟨trace ++ [], .ok a⟩ : Run α) = ⟨trace, .ok a⟩
    rw [List.append_nil]

theorem bind_assoc_eq (r : Run α) (f : α → Run β) (g : β → Run γ) :
    r >>= f >>= g = r >>= fun a => f a >>= g := by
  obtain ⟨trace, _ | a⟩ := r
  · rfl
  · simp only [bind_eq, andThen]
    cases (f a).outcome with
    | error e => rfl
    | ok b => simp only [List.append_assoc]

instance : LawfulMonad Run :=
  LawfulMonad.mk' Run id_map_eq (fun _ _ => rfl) bind_assoc_eq

theorem outcome_bind_ok {r : Run α} {a : α} (h : r.outcome = .ok a) (f : α → Run β) :
    (r >>= f).outcome = (f a).outcome := by
  simp only [bind_eq, andThen, h]

theorem outcome_bind_error {r : Run α} {e : Failure} (h : r.outcome = .error e) (f : α → Run β) :
    (r >>= f).outcome = .error e := by
  simp only [bind_eq, andThen, h]

/-- What a run put together from two ends in: the failure of the first, or what the second does. -/
theorem outcome_bind_cases {r : Run α} {f : α → Run β} {res : Except Failure β}
    (h : (r >>= f).outcome = res) : (∃ err, r.outcome = .error err ∧ res = .error err) ∨
      ∃ a, r.outcome = .ok a ∧ (f a).outcome = res := by
  cases hr : r.outcome with
  | error err => exact .inl ⟨err, rfl, h.symm.trans (outcome_bind_error hr f)⟩
  | ok a => exact .inr ⟨a, rfl, (outcome_bind_ok hr f).symm.trans h⟩

/-- The events of a run put together from two: those of the first, and those of the second if there
is one. -/
theorem trace_bind_cases (r : Run α) (f : α → Run β) :
    (∃ e, r.outcome = .error e ∧ (r >>= f).trace = r.trace) ∨
      ∃ a, r.outcome = .ok a ∧ (r >>= f).trace = r.trace ++ (f a).trace := by
  obtain ⟨trace, e | a⟩ := r
  · exact .inl ⟨e, rfl, rfl⟩
  · exact .inr ⟨a, rfl, rfl⟩

theorem trace_bind_ok {r : Run α} {a : α} (h : r.outcome = .ok a) (f : α → Run β) :
    (r >>= f).trace = r.trace ++ (f a).trace := by
  simp only [bind_eq, andThen, h]

theorem trace_bind_error {r : Run α} {e : Failure} (h : r.outcome = .error e) (f : α → Run β) :
    (r >>= f).trace = r.trace := by
  simp only [bind_eq, andThen, h]

theorem trace_bind_pure (r : Run α) (f : α → β) : (r >>= fun a => pure (f a)).trace = r.trace := by
  rcases trace_bind_cases r fun a => pure (f a) with ⟨e, -, htrace⟩ | ⟨a, -, htrace⟩
  · exact htrace
  · exact htrace.trans (List.append_nil _)

theorem outcome_report (w : Watch) (e : Event) :
    (report w e).outcome = .ok () ∨ (report w e).outcome = .error .tooDeep := by
  unfold report
  split
  · split
    · exact .inl rfl
    · exact .inr rfl
  · exact .inl rfl

theorem outcome_report_of_le {w : Watch} {e : Event} (h : w.tracing = true → e.depth ≤ w.writing) :
    (report w e).outcome = .ok () := by
  unfold report
  split
  · rw [if_pos (h ‹_›)]
  · rfl

end Run

/-! ## Operators -/

namespace Value

theorem neg_ne_tooDeep (v : Value) : v.neg ≠ .error .tooDeep := by
  cases v <;> simp [neg]

theorem refuse_ne_tooDeep (op : BinaryOperator) (x y : Value) :
    refuse op x y ≠ .error .tooDeep := by
  simp [refuse]

variable [Machine]

theorem repeatText_ne_tooDeep (s : String) (count : Nat) :
    repeatText s count ≠ .error .tooDeep := by
  unfold repeatText
  split
  · simp
  · split <;> simp

theorem mul_ne_tooDeep (x y : Value) : mul x y ≠ .error .tooDeep := by
  unfold mul
  split
  · simp
  · split
    · simp
    · split
      · exact refuse_ne_tooDeep _ _ _
      · exact repeatText_ne_tooDeep _ _
  · exact refuse_ne_tooDeep _ _ _

end Value

theorem BinaryOperator.apply_ne_tooDeep [Machine] (op : BinaryOperator) (x y : Value) :
    op.apply x y ≠ .error .tooDeep := by
  cases op with
  | mul => exact Value.mul_ne_tooDeep x y
  | _ =>
    simp only [BinaryOperator.apply, Value.add, Value.sub, Value.div]
    split <;> simp [Value.refuse]

/-! ## Arguments -/

/-- After binding several names, each means what it was bound to last. -/
theorem Environment.lookup?_bindAll (env : Environment) (bs : List (String × Value)) (n : String) :
    (env.bindAll bs).lookup? n = (bs.reverse.lookup n).or (env.lookup? n) := by
  induction bs generalizing env with
  | nil => rfl
  | cons b bs ih =>
    rw [bindAll, List.foldl_cons, ← bindAll, ih, lookup?_bind, List.reverse_cons,
      List.lookup_append, Option.or_assoc]
    rw [List.lookup_cons]
    by_cases hn : n = b.1
    · simp [hn]
    · simp [hn, beq_false_of_ne hn]

/-- The values of some expressions, evaluated from left to right; the first failure ends it. -/
def evaluateAll (evaluate : Expr → Run Value) (args : List Expr) : Except Failure (List Value) :=
  args.mapM fun e => (evaluate e).outcome

section Arguments

variable {evaluate : Expr → Run Value}

theorem evaluateAll_cons_error {e : Expr} {args : List Expr} {err : Failure}
    (h : (evaluate e).outcome = .error err) : evaluateAll evaluate (e :: args) = .error err := by
  rw [evaluateAll, List.mapM_cons, h]
  rfl

theorem evaluateAll_cons_ok {e : Expr} {args : List Expr} {v : Value}
    (h : (evaluate e).outcome = .ok v) :
    evaluateAll evaluate (e :: args) = (evaluateAll evaluate args).map (v :: ·) := by
  rw [evaluateAll, List.mapM_cons, h, ← evaluateAll]
  cases evaluateAll evaluate args <;> rfl

/-- No argument sees the parameters that are bound before it. -/
theorem outcome_bindArguments (params : List String) (args : List Expr) (env : Environment)
    (hlen : args.length = params.length) :
    (bindArguments evaluate (params.zip args) env).outcome =
      (evaluateAll evaluate args).map fun vs => env.bindAll (params.zip vs) := by
  induction params generalizing args env with
  | nil =>
    obtain rfl := List.length_eq_zero_iff.1 hlen
    rfl
  | cons n params ih =>
    obtain ⟨e, args, rfl⟩ := List.exists_cons_of_length_eq_add_one hlen
    have hlen : args.length = params.length := Nat.succ.inj hlen
    simp only [List.zip_cons_cons, bindArguments]
    cases hv : (evaluate e).outcome with
    | error err =>
      rw [Run.outcome_bind_error hv, evaluateAll_cons_error hv]
      rfl
    | ok v =>
      rw [Run.outcome_bind_ok hv, ih args _ hlen, evaluateAll_cons_ok hv]
      cases evaluateAll evaluate args <;> rfl

end Arguments

/-! ## Programs -/

variable [Machine]

/-- A program gives what its statements give, but for the value, which is that of the last one. -/
theorem runFrom_eq_bind (w : Run.Watch) (depth : Nat) (last : Value) (env : Environment)
    (p : Program) : runFrom w depth last env p =
      runAll w depth env p >>= fun x => pure (x.1.getLastD last, x.2) := by
  induction p generalizing last env with
  | nil => rfl
  | cons s p ih => simp only [runFrom, runAll, bind_assoc, pure_bind, ih, List.getLastD_cons]

/-- A run goes on from where its first part ends. -/
theorem runFrom_append (w : Run.Watch) (depth : Nat) (last : Value) (env : Environment)
    (p q : Program) : runFrom w depth last env (p ++ q) =
      runFrom w depth last env p >>= fun x => runFrom w depth x.1 x.2 q := by
  induction p generalizing last env with
  | nil => rw [List.nil_append, runFrom, pure_bind]
  | cons s p ih => simp only [List.cons_append, runFrom, ih, bind_assoc]

theorem trace_runProgram (w : Run.Watch) (depth : Nat) (env : Environment) (p : Program) :
    (runProgram w depth env p).trace = (runAll w depth env p).trace := by
  rw [runProgram, runFrom_eq_bind, Run.trace_bind_pure]

end Calx
