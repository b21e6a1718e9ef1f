import Mathlib
import Calx.Proofs.Eval.Limit
import Calx.Proofs.Eval.Preorder
import Calx.Proofs.Session.Line

/-!
# Lines under limits

What a session answers to a line is what it would answer under a larger limit, unless the line is
stopped; then it says so, and goes on as it was before the line (`limits_only_withhold`).
-/

namespace Calx

namespace Session

variable {s : Session} {text : String}

/-- The session with another limit on how many evaluations may be nested. -/
def evaluatingTo (s : Session) (depth : Nat) : Session :=
  { s with limits := { s.limits with evaluation := depth } }

variable [Machine]

/-- A text that is not stopped comes to the same under a larger limit. -/
theorem run_evaluatingTo {depth : Nat} (hdepth : s.limits.evaluation ≤ depth) (text : String) :
    (s.run text).outcome = .error (.failed .tooDeep) ∨
      (s.evaluatingTo depth).run text =
        { s.run text with session := (s.run text).session.evaluatingTo depth } := by
  have hread : (s.evaluatingTo depth).read text = s.read text := rfl
  unfold run perform
  rw [hread]
  split
  · exact .inr rfl
  · rename_i events p _
    rcases runProgram_begins (Nat.le_refl s.limits.writing) hdepth s.env p with heq | ⟨hdeep, -⟩
    · refine .inr ?_
      have hrun : runProgram (s.evaluatingTo depth).watch (s.evaluatingTo depth).limits.evaluation
          (s.evaluatingTo depth).env p = runProgram s.watch s.limits.evaluation s.env p := heq
      rw [hrun]
      obtain ⟨trace, _ | _⟩ := runProgram s.watch s.limits.evaluation s.env p <;> rfl
    · refine .inl ?_
      have hrun : (runProgram s.watch s.limits.evaluation s.env p).outcome = .error .tooDeep := hdeep
      generalize runProgram s.watch s.limits.evaluation s.env p = r at hrun ⊢
      obtain ⟨trace, outcome⟩ := r
      cases hrun
      rfl

/-- A text without a value leaves the session as it is. -/
theorem session_run_of_error {t : Trouble} (h : (s.run text).outcome = .error t) :
    (s.run text).session = s := by
  have hrun : Performed s text _ (s.run text).outcome (s.run text).session :=
    performed s text (runProgram s.watch s.limits.evaluation)
  rw [h] at hrun
  generalize (s.run text).session = next at hrun
  cases hrun <;> rfl

theorem line_of_error {t : Trouble} {r : Report} (h : (s.run text).outcome = .error t)
    (hr : t.report = .ok r) : (s.line text).2 = (.ok (r.display none), s) := by
  show (answer (s.run text).outcome, (s.run text).session) = _
  rw [session_run_of_error h, h, answer, hr]
  rfl

end Session

/-- **Limits only withhold an answer.** Under larger limits a run is what it is under smaller ones,
unless these cut it short; then it begins in the same way. The runs that all limits cut short are those
without a result by the rules. A line that is stopped by a limit, on evaluating or on reading it,
leaves the session as it is; any other line is answered, and leaves the session, as under a larger
limit. -/
theorem limits_only_withhold [Machine] :
    (∀ (tracing : Bool) (writing writing' depth depth' : Nat) (env : Environment),
      writing ≤ writing' → depth ≤ depth' →
      (∀ e, (eval ⟨tracing, writing⟩ depth env e).Begins (eval ⟨tracing, writing'⟩ depth' env e)) ∧
      ∀ p, (runProgram ⟨tracing, writing⟩ depth env p).Begins
          (runProgram ⟨tracing, writing'⟩ depth' env p) ∧
        (runAll ⟨tracing, writing⟩ depth env p).Begins
          (runAll ⟨tracing, writing'⟩ depth' env p)) ∧
    (∀ (tracing : Bool) (env : Environment),
      (∀ e, (∀ writing depth, (eval ⟨tracing, writing⟩ depth env e).outcome = .error .tooDeep) ↔
        ¬∃ res, Evaluates env e res) ∧
      ∀ p, (∀ writing depth,
          (runProgram ⟨tracing, writing⟩ depth env p).outcome = .error .tooDeep) ↔
        ¬∃ res, ExecutesAll env p res) ∧
    ∀ (s : Session) (text : String),
      ((s.run text).outcome = .error (.failed .tooDeep) →
        (s.line text).2 = (.ok "EvalError: maximum recursion depth exceeded", s)) ∧
      ((s.run text).outcome = .error (.rejected .tooDeep) →
        (s.line text).2 = (.ok "ParseError: maximum nesting depth exceeded", s)) ∧
      ((s.run text).outcome ≠ .error (.failed .tooDeep) →
        ∀ depth, s.limits.evaluation ≤ depth →
          let (trace, shown, next) := s.line text
          (s.evaluatingTo depth).line text = (trace, shown, next.evaluatingTo depth)) := by
  refine ⟨fun tracing writing writing' depth depth' env hwriting hdepth =>
      ⟨eval_begins hwriting hdepth env, fun p =>
        ⟨runProgram_begins hwriting hdepth env p, runAll_begins hwriting hdepth env p⟩⟩,
    fun tracing env => ⟨fun e => ?_, fun p => ?_⟩,
    fun s text => ⟨fun h => Session.line_of_error h rfl, fun h => Session.line_of_error h rfl,
      fun hne depth hdepth => ?_⟩⟩
  · exact forall_tooDeep_iff (fun _ h => ⟨h.ne_tooDeep, h.endsIn⟩)
      (fun _ _ _ => evaluates_of_outcome) tracing
  · simp only [outcome_runProgram_eq_error_iff]
    exact forall_tooDeep_iff (fun _ h => ⟨h.ne_tooDeep, h.endsIn⟩)
      (fun _ _ _ => executesAll_of_outcome) tracing
  · have hrun := (Session.run_evaluatingTo hdepth text).resolve_left hne
    show (((s.evaluatingTo depth).run text).trace, Session.answer ((s.evaluatingTo depth).run text).outcome,
      ((s.evaluatingTo depth).run text).session) = _
    rw [hrun]

/-- A function that only calls itself has no result. A session stops the call, and keeps nothing of the
line that defines the function. -/
theorem runaway_is_withheld :
    let f : Function := ⟨"f", [], .apply (.var "f") []⟩
    let s : Session := .fresh false ⟨9, 5, 5⟩
    (¬∃ res, Evaluates ⟨[("f", .function f)]⟩ f.body res) ∧
      (s.run "def f() = f(); f()").outcome = .error (.failed .tooDeep) ∧
      (s.line "def f() = f(); f()").2.2 = s := by
  intro f s
  have hdeep (writing depth : Nat) :
      (eval ⟨false, writing⟩ depth ⟨[("f", .function f)]⟩ f.body).outcome = .error .tooDeep := by
    induction depth with
    | zero => rfl
    | succ depth ih =>
      cases depth with
      | zero => rfl
      | succ depth => exact ih
  have hstopped : (s.run "def f() = f(); f()").outcome = .error (.failed .tooDeep) := by cbv
  refine ⟨((limits_only_withhold.2.1 false _).1 _).1 hdeep, hstopped, ?_⟩
  rw [(limits_only_withhold.2.2 s _).1 hstopped]

end Calx
