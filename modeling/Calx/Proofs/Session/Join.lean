import Calx.Proofs.Grammar.Join
import Calx.Proofs.Session.Line
import Calx.Proofs.Session.Reading

/-!
# Two lines as one text

A session that runs two lines does what it does with both as one text (`run_joined`). The two
programs are read as one (`ofText_joined`), a run goes on where its first part ends
(`Calx.runFrom_append`), and what fails leaves the session as it was, be it a line or the whole text.
-/

namespace Calx

namespace Session

variable {s : Session} {text first second : String} {p q : Program}

/-! ## Running -/

/-- A text comes to one thing only. -/
theorem Performed.unique {α : Type} {run : Environment → Program → Run (α × Environment)}
    {outcome outcome' : Except Trouble α} {next next' : Session}
    (h : Performed s text run outcome next) (h' : Performed s text run outcome' next') :
    outcome = outcome' ∧ next = next' := by
  cases h with
  | succeeds hread hrun =>
    cases h' with
    | succeeds hread' hrun' =>
      cases hread.symm.trans hread'
      cases hrun.symm.trans hrun'
      exact ⟨rfl, rfl⟩
    | rejected hread' => cases hread.symm.trans hread'
    | fails hread' hrun' =>
      cases hread.symm.trans hread'
      cases hrun.symm.trans hrun'
  | rejected hread =>
    cases h' with
    | rejected hread' =>
      cases hread.symm.trans hread'
      exact ⟨rfl, rfl⟩
    | succeeds hread' | fails hread' => cases hread.symm.trans hread'
  | fails hread hrun =>
    cases h' with
    | fails hread' hrun' =>
      cases hread.symm.trans hread'
      cases hrun.symm.trans hrun'
      exact ⟨rfl, rfl⟩
    | rejected hread' => cases hread.symm.trans hread'
    | succeeds hread' hrun' =>
      cases hread.symm.trans hread'
      cases hrun.symm.trans hrun'

theorem read_of_append (h : Program.ofText s.limits.nesting text = .ok (p ++ q))
    (hp : s.Announces p) (hq : s.Announces q) : (s.read text).outcome = .ok (p ++ q) := by
  rcases read_cases h with ⟨-, hread⟩ | ⟨hsilent, -⟩
  · exact hread
  · exact absurd (announces_append.2 ⟨hp, hq⟩) hsilent

section Runs

variable [Machine]

theorem run_of_ok {v : Value} {env : Environment} (hread : (s.read text).outcome = .ok p)
    (hrun : s.runUnder p = .ok (v, env)) :
    (s.run text).outcome = .ok v ∧ (s.run text).session = { s with env } :=
  (performed s text (runProgram s.watch s.limits.evaluation)).unique (.succeeds hread hrun)

/-- A text that is read as one expression comes to its value, and the session stays as it is. -/
theorem run_of_eval {e : Expr} {v : Value}
    (hp : Program.ofText s.limits.nesting text = .ok [.expr e])
    (hwriting : s.tracing = true → e.depth < s.limits.writing)
    (heval : (eval s.watch s.limits.evaluation s.env e).outcome = .ok v) :
    (s.run text).outcome = .ok v ∧ (s.run text).session = s := by
  have hannounces : s.Announces [.expr e] := fun htracing => by
    rw [Program.depth_le_iff, List.forall_mem_singleton]
    exact hwriting htracing
  have hread : (s.read text).outcome = .ok [.expr e] :=
    ((read_cases hp).resolve_right fun h => h.1 hannounces).2
  have hreport : (Run.report s.watch (.statement (.expr e))).outcome = .ok () :=
    Run.outcome_report_of_le hwriting
  have hstmt : (runStmt s.watch s.limits.evaluation s.env (.expr e)).outcome = .ok (v, s.env) := by
    rw [runStmt, Run.outcome_bind_ok hreport, Run.outcome_bind_ok heval]
    rfl
  have hrun : s.runUnder [.expr e] = .ok (v, s.env) := by
    rw [runUnder, runProgram, runFrom, Run.outcome_bind_ok hstmt]
    rfl
  exact run_of_ok hread hrun

theorem run_of_error {f : Failure} (hread : (s.read text).outcome = .ok p)
    (hrun : s.runUnder p = .error f) :
    (s.run text).outcome = .error (.failed f) ∧ (s.run text).session = s :=
  (performed s text (runProgram s.watch s.limits.evaluation)).unique (.fails hread hrun)

theorem run_of_rejected {r : Rejection} (hread : (s.read text).outcome = .error r) :
    (s.run text).outcome = .error (.rejected r) ∧ (s.run text).session = s :=
  (performed s text (runProgram s.watch s.limits.evaluation)).unique (.rejected hread)

/-- The value of a program does not depend on what has run before it, but for its environment. -/
theorem runUnder_append_of_ok {v : Value} {env : Environment} (h : s.runUnder p = .ok (v, env))
    (hq : q ≠ []) : s.runUnder (p ++ q) = ({ s with env } : Session).runUnder q := by
  unfold runUnder runProgram at h ⊢
  rw [runFrom_append, Run.outcome_bind_ok h]
  cases q with
  | nil => exact absurd rfl hq
  | cons => rfl

theorem runUnder_append_of_error {f : Failure} (h : s.runUnder p = .error f) (q : Program) :
    s.runUnder (p ++ q) = .error f := by
  unfold runUnder runProgram at h ⊢
  rw [runFrom_append, Run.outcome_bind_error h]

/-! ## Two texts as one -/

/-- The first text is read and run, if it does not end in being rejected. -/
theorem reads_of_run (hp : Program.ofText s.limits.nesting first = .ok p)
    (h : ∀ r, (s.run first).outcome ≠ .error (.rejected r)) :
    s.Announces p ∧ (s.read first).outcome = .ok p :=
  (read_cases hp).resolve_right fun hsilent => h _ (run_of_rejected hsilent.2).1

/-- The first text gives a value. Both together then end as the second does behind the first; only
the session is as before the first if the second fails. -/
theorem run_append_of_ok {v : Value} (hboth : Program.ofText s.limits.nesting text = .ok (p ++ q))
    (hp : Program.ofText s.limits.nesting first = .ok p)
    (hq : Program.ofText s.limits.nesting second = .ok q) (hne : q ≠ [])
    (h : (s.run first).outcome = .ok v) :
    let next := (s.run first).session
    (∃ u, (next.run second).outcome = .ok u ∧ (s.run text).outcome = .ok u ∧
      (s.run text).session = (next.run second).session) ∨
    ∃ t, (next.run second).outcome = .error t ∧ (s.run text).outcome = .error t ∧
      (s.run text).session = s := by
  obtain ⟨htold, hread⟩ := reads_of_run hp fun r hr => by cases hr.symm.trans h
  obtain ⟨env, hrun⟩ : ∃ env, s.runUnder p = .ok (v, env) := by
    cases hrun : s.runUnder p with
    | ok x =>
      cases (run_of_ok hread hrun).1.symm.trans h
      exact ⟨x.2, rfl⟩
    | error f => cases (run_of_error hread hrun).1.symm.trans h
  rw [(run_of_ok hread hrun).2]
  let next : Session := { s with env }
  rcases read_cases (s := next) hq with ⟨htold', hread'⟩ | ⟨hsilent, hread'⟩
  case inl =>
    have hreads := read_of_append hboth htold htold'
    have hruns : s.runUnder (p ++ q) = next.runUnder q := runUnder_append_of_ok hrun hne
    cases hrunq : next.runUnder q with
    | ok x =>
      obtain ⟨hout, hnext⟩ := run_of_ok hread' hrunq
      obtain ⟨houts, hnexts⟩ := run_of_ok hreads (hruns.trans hrunq)
      exact .inl ⟨x.1, hout, houts, hnexts.trans hnext.symm⟩
    | error f =>
      exact .inr ⟨_, (run_of_error hread' hrunq).1, run_of_error hreads (hruns.trans hrunq)⟩
  case inr =>
    -- What cannot report the second program cannot report both.
    have hreads : (s.read text).outcome = .error .tooDeep := by
      refine ((read_cases hboth).resolve_left fun htold => ?_).2
      exact hsilent (announces_append.1 htold.1).2
    exact .inr ⟨_, (run_of_rejected hread').1, run_of_rejected hreads⟩

/-- The first text fails. Both together then fail alike, if the second can be read. -/
theorem run_append_of_failed {f : Failure}
    (hboth : Program.ofText s.limits.nesting text = .ok (p ++ q))
    (hp : Program.ofText s.limits.nesting first = .ok p) (hq : s.Announces q)
    (h : (s.run first).outcome = .error (.failed f)) :
    (s.run text).outcome = .error (.failed f) ∧ (s.run text).session = s := by
  obtain ⟨htold, hread⟩ := reads_of_run hp fun r hr => by cases hr.symm.trans h
  have hrun : s.runUnder p = .error f := by
    cases hrun : s.runUnder p with
    | ok x => cases (run_of_ok hread hrun).1.symm.trans h
    | error g =>
      cases (run_of_error hread hrun).1.symm.trans h
      rfl
  exact run_of_error (read_of_append hboth htold hq) (runUnder_append_of_error hrun q)

/-- **Two lines do what they do as one text.** Two texts that are programs are one program when they
are put together. If the first gives a value, both together give what the second gives behind it: its
value and the session after it, or what fails, with the session left as it was before the first. If
the first fails, both together fail alike. -/
theorem run_joined (hdepth : (joined first second).length < s.limits.nesting)
    (hp : Program.ofText s.limits.nesting first = .ok p)
    (hq : Program.ofText s.limits.nesting second = .ok q) (hp' : p ≠ []) (hq' : q ≠ []) :
    Program.ofText s.limits.nesting (joined first second) = .ok (p ++ q) ∧
    (∀ v, (s.run first).outcome = .ok v →
      let next := (s.run first).session
      (s.run (joined first second)).outcome = (next.run second).outcome ∧
      (s.line (joined first second)).2.1 = (next.line second).2.1 ∧
      (∀ u, (next.run second).outcome = .ok u →
        (s.run (joined first second)).session = (next.run second).session) ∧
      ∀ t, (next.run second).outcome = .error t → (s.run (joined first second)).session = s) ∧
    ∀ f, (s.run first).outcome = .error (.failed f) → (s.read second).outcome = .ok q →
      (s.run (joined first second)).outcome = .error (.failed f) ∧
      (s.run (joined first second)).session = s := by
  have hboth := ofText_joined hdepth hp hq hp' hq'
  refine ⟨hboth, fun v hv => ?_, fun f hf hread => ?_⟩
  · have hline (s : Session) (text : String) : (s.line text).2.1 = answer (s.run text).outcome := rfl
    intro next
    rw [hline, hline]
    rcases run_append_of_ok hboth hp hq hq' hv with ⟨u, hu, hout, hnext⟩ | ⟨t, ht, hout, hnext⟩
    · rw [hout, hu]
      exact ⟨rfl, rfl, fun _ _ => hnext, nofun⟩
    · rw [hout, ht]
      exact ⟨rfl, rfl, nofun, fun _ _ => hnext⟩
  · have htold : s.Announces q := by
      refine ((read_cases hq).resolve_right fun hsilent => ?_).1
      cases hsilent.2.symm.trans hread
    exact run_append_of_failed hboth hp htold hf

end Runs

/-- A definition that ends in a semicolon goes on with a call on the next line; behind a variable
that is not defined nothing runs. -/
theorem run_joined_define_apply :
    (joined "def f(x) = x;" "f(\"a\")").length < 30 ∧ (joined "x" "f(x)").length < 30 ∧
    ((fresh false ⟨30, 20, 20⟩).run (joined "def f(x) = x;" "f(\"a\")")).outcome =
      .ok (.text "a") ∧
    ((fresh false ⟨30, 20, 20⟩).run (joined "x" "f(x)")).outcome =
      .error (.failed (.error (.undefinedVariable "x"))) := by
  have hlt : (joined "def f(x) = x;" "f(\"a\")").length < 30 := by cbv
  have hlt' : (joined "x" "f(x)").length < 30 := by cbv
  have hdefine : Program.ofText 30 "def f(x) = x;" = .ok [.define "f" ["x"] (.var "x")] := by cbv
  have happly : Program.ofText 30 "f(\"a\")" = .ok [.expr (.apply (.var "f") [.text "a"])] := by cbv
  have hvar : Program.ofText 30 "x" = .ok [.expr (.var "x")] := by cbv
  have happly' : Program.ofText 30 "f(x)" = .ok [.expr (.apply (.var "f") [.var "x"])] := by cbv
  have hvalue := (run_joined (s := fresh false ⟨30, 20, 20⟩) hlt hdefine happly (List.cons_ne_nil _ _)
    (List.cons_ne_nil _ _)).2.1 .unit (by cbv)
  have hfails := (run_joined (s := fresh false ⟨30, 20, 20⟩) hlt' hvar happly' (List.cons_ne_nil _ _)
    (List.cons_ne_nil _ _)).2.2
    (.error (.undefinedVariable "x")) (by cbv) (by cbv)
  exact ⟨hlt, hlt', hvalue.1.trans (by cbv), hfails.1⟩

end Session

end Calx
