import Calx.Proofs.Eval.BigStep

/-!
# Limits

How deep an evaluation may go, and how deep a tree can be written out, decide whether there is an
answer and never which one. A run under smaller limits is the run under larger ones, or a beginning of
it that ends in having gone too deep (`Run.Begins`): nothing catches that failure, and nothing that
comes behind it in the program is looked at. What is too deep for all limits has no result by the
rules, and what has none is too deep for all limits (`forall_tooDeep_iff`).
-/

namespace Calx

namespace Run

variable {α β : Type}

/-- The second run is the first one; or the first one is cut short: it ends in having gone too deep,
and the second one begins with what it has reported. -/
def Begins (r r' : Run α) : Prop :=
  r' = r ∨ r.outcome = .error .tooDeep ∧ r.trace <+: r'.trace

theorem trace_prefix_bind (r : Run α) (f : α → Run β) : r.trace <+: (r >>= f).trace := by
  rcases trace_bind_cases r f with ⟨_, -, htrace⟩ | ⟨_, -, htrace⟩
  · exact ⟨[], (List.append_nil _).trans htrace.symm⟩
  · exact ⟨_, htrace.symm⟩

namespace Begins

protected theorem refl (r : Run α) : r.Begins r := .inl rfl

theorem tooDeep (r : Run α) : (fail .tooDeep : Run α).Begins r :=
  .inr ⟨rfl, List.nil_prefix⟩

protected theorem bind {r r' : Run α} {f f' : α → Run β} (h : r.Begins r')
    (hf : ∀ a, (f a).Begins (f' a)) : (r >>= f).Begins (r' >>= f') := by
  rcases h with rfl | ⟨hdeep, hprefix⟩
  · cases hr : r'.outcome with
    | error e => exact .inl (by simp only [bind_eq, andThen, hr])
    | ok a =>
      rcases hf a with heq | ⟨hdeep, hprefix⟩
      · exact .inl (by simp only [bind_eq, andThen, hr, heq])
      · refine .inr ⟨(outcome_bind_ok hr f).trans hdeep, ?_⟩
        rw [trace_bind_ok hr, trace_bind_ok hr]
        exact (List.prefix_append_right_inj _).2 hprefix
  · refine .inr ⟨outcome_bind_error hdeep f, ?_⟩
    rw [trace_bind_error hdeep]
    exact hprefix.trans (trace_prefix_bind r' f')

theorem report {tracing : Bool} {writing writing' : Nat} (h : writing ≤ writing') (e : Event) :
    (report ⟨tracing, writing⟩ e).Begins (report ⟨tracing, writing'⟩ e) := by
  unfold Run.report
  cases tracing with
  | false => exact .refl _
  | true =>
    by_cases hdepth : e.depth ≤ writing
    · rw [if_pos rfl, if_pos rfl, if_pos hdepth, if_pos (Nat.le_trans hdepth h)]
      exact .refl _
    · rw [if_pos rfl, if_neg hdepth]
      exact .tooDeep _

end Begins

end Run

/-! ## Larger limits -/

section Limits

variable {tracing : Bool} {writing writing' depth depth' : Nat}

theorem bindArguments_begins {evaluate evaluate' : Expr → Run Value}
    (h : ∀ e, (evaluate e).Begins (evaluate' e)) (bs : List (String × Expr)) (env : Environment) :
    (bindArguments evaluate bs env).Begins (bindArguments evaluate' bs env) := by
  induction bs generalizing env with
  | nil => exact .refl _
  | cons b bs ih => exact (h b.2).bind fun v => ih (env.bind b.1 v)

variable [Machine] (hwriting : writing ≤ writing') (hdepth : depth ≤ depth')

include hwriting hdepth

theorem eval_begins (env : Environment) (e : Expr) :
    (eval ⟨tracing, writing⟩ depth env e).Begins (eval ⟨tracing, writing'⟩ depth' env e) := by
  -- Each level further in has one level less on both sides, so only the outer one can be cut short.
  induction depth generalizing depth' env e with
  | zero => exact .tooDeep _
  | succ depth ih =>
    obtain ⟨depth', rfl⟩ : ∃ d, depth' = d + 1 := ⟨depth' - 1, by omega⟩
    replace ih := @ih depth' (Nat.le_of_succ_le_succ hdepth)
    refine (Run.Begins.report hwriting _).bind fun _ => ?_
    cases e with
    | number | text => exact .refl _
    | var n => exact .refl _
    | negate e => exact (ih env e).bind fun v => .refl _
    | binary op l r => exact (ih env l).bind fun x => (ih env r).bind fun y => .refl _
    | letIn n b body => exact (ih env b).bind fun v => ih (env.bind n v) body
    | apply callee args =>
      refine (ih env callee).bind fun v => ?_
      cases v with
      | function f =>
        dsimp only
        split
        · exact (bindArguments_begins (ih env) _ env).bind fun inner =>
            (Run.Begins.report hwriting _).bind fun _ => ih inner f.body
        · exact .refl _
      | _ => exact .refl _

theorem runStmt_begins (env : Environment) (s : Stmt) :
    (runStmt ⟨tracing, writing⟩ depth env s).Begins (runStmt ⟨tracing, writing'⟩ depth' env s) := by
  refine (Run.Begins.report hwriting _).bind fun _ => ?_
  cases s with
  | expr e => exact (eval_begins hwriting hdepth env e).bind fun v => .refl _
  | define => exact .refl _
  | bind n e => exact (eval_begins hwriting hdepth env e).bind fun v => .refl _

theorem runAll_begins (env : Environment) (p : Program) :
    (runAll ⟨tracing, writing⟩ depth env p).Begins (runAll ⟨tracing, writing'⟩ depth' env p) := by
  induction p generalizing env with
  | nil => exact .refl _
  | cons s p ih =>
    exact (runStmt_begins hwriting hdepth env s).bind fun x => (ih x.2).bind fun y => .refl _

theorem runProgram_begins (env : Environment) (p : Program) :
    (runProgram ⟨tracing, writing⟩ depth env p).Begins
      (runProgram ⟨tracing, writing'⟩ depth' env p) := by
  rw [runProgram, runProgram, runFrom_eq_bind, runFrom_eq_bind]
  exact (runAll_begins hwriting hdepth env p).bind fun x => .refl _

end Limits

/-! ## All limits -/

section All

variable {α : Type} {run : Run.Watch → Nat → Run α}

/-- A computation that is too deep for all limits does not end in anything else. -/
theorem EndsIn.eq_tooDeep {res : Except Failure α} (h : EndsIn run res) (tracing : Bool)
    (hdeep : ∀ writing depth, (run ⟨tracing, writing⟩ depth).outcome = .error .tooDeep) :
    res = .error .tooDeep := by
  obtain ⟨bound, hbound⟩ := h
  exact (hbound ⟨tracing, bound⟩ bound ⟨Nat.le_refl _, fun _ => Nat.le_refl _⟩).symm.trans
    (hdeep bound bound)

/-- **What is too deep for all limits has no result**, and the other way round, if the results are
what the computation ends in with limits large enough, and all that it ends in unless it is cut
short. -/
theorem forall_tooDeep_iff {Results : Except Failure α → Prop}
    (hends : ∀ res, Results res → res ≠ .error .tooDeep ∧ EndsIn run res)
    (hfound : ∀ w depth res, (run w depth).outcome = res → res ≠ .error .tooDeep → Results res)
    (tracing : Bool) :
    (∀ writing depth, (run ⟨tracing, writing⟩ depth).outcome = .error .tooDeep) ↔
      ¬∃ res, Results res := by
  constructor
  · rintro hdeep ⟨res, h⟩
    obtain ⟨hne, hin⟩ := hends res h
    exact hne (hin.eq_tooDeep tracing hdeep)
  · intro hnone writing depth
    by_cases hdeep : (run ⟨tracing, writing⟩ depth).outcome = .error .tooDeep
    · exact hdeep
    · exact absurd ⟨_, hfound _ _ _ rfl hdeep⟩ hnone

end All

end Calx
