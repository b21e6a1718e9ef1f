import Calx.Proofs.Eval.Failure
import Calx.Session

/-!
# One line

What a session does with one line (`Session.line_answered`): it shows a value, and the environment is
the one that the program leaves; or it shows a report, and is as before; or the machine is exhausted,
nothing is shown, and it is as before. The lines that show nothing are those whose programs come to
the repetition of a text that is too long, by a count that is small enough to be one
(`Session.line_shows_iff`).
-/

namespace Calx

namespace Session

/-! ## Texts -/

variable {α : Type} {s : Session} {text : String}

/-- What comes of a text that a session runs. -/
inductive Performed (s : Session) (text : String)
    (run : Environment → Program → Run (α × Environment)) : Except Trouble α → Session → Prop where
  | succeeds {p : Program} {a : α} {env : Environment} :
      (s.read text).outcome = .ok p → (run s.env p).outcome = .ok (a, env) →
      Performed s text run (.ok a) { s with env }
  | rejected {r : Rejection} :
      (s.read text).outcome = .error r → Performed s text run (.error (.rejected r)) s
  | fails {p : Program} {f : Failure} :
      (s.read text).outcome = .ok p → (run s.env p).outcome = .error f →
      Performed s text run (.error (.failed f)) s

theorem performed (s : Session) (text : String)
    (run : Environment → Program → Run (α × Environment)) :
    Performed s text run (s.perform text run).outcome (s.perform text run).session := by
  unfold perform
  split
  · rename_i events r hread
    exact .rejected (by rw [hread])
  · rename_i events p hread
    split
    · rename_i more f hrun
      exact .fails (by rw [hread]) (by rw [hrun])
    · rename_i more a env hrun
      exact .succeeds (by rw [hread]) (by rw [hrun])

/-! ## Lines -/

/-- The families of the reports that a line can be answered with. -/
def reported : List Family := [.lexical, .parsing, .evaluation]

theorem family_rejection_mem (r : Rejection) : r.report.family ∈ reported := by
  cases r <;> simp [reported, Rejection.report, LexError.report, Diagnostic.report]

theorem family_failure_mem {f : Failure} {r : Report} (h : f.report = .ok r) :
    r.family ∈ reported := by
  cases f <;> cases h <;> simp [reported, EvalError.report]

section Lines

variable [Machine]

/-- The program `p` under the limits of a session. -/
def runUnder (s : Session) (p : Program) : Except Failure (Value × Environment) :=
  (runProgram s.watch s.limits.evaluation s.env p).outcome

/-- What a session answers to a line, and the session after it. -/
inductive Answered (s : Session) (text : String) : Except Exhaustion String → Session → Prop where
  /-- The value of a program. -/
  | value {p : Program} {v : Value} {env : Environment} :
      (s.read text).outcome = .ok p → s.runUnder p = .ok (v, env) →
      Answered s text (.ok ("=> " ++ v.display)) { s with env }
  /-- The report of a text that is not read. The session is as before. -/
  | unread {r : Rejection} :
      (s.read text).outcome = .error r → Answered s text (.ok (r.report.display none)) s
  /-- The report of a program that fails. The session is as before. -/
  | failed {p : Program} {f : Failure} {r : Report} :
      (s.read text).outcome = .ok p → s.runUnder p = .error f → f.report = .ok r →
      Answered s text (.ok (r.display none)) s
  /-- Nothing, if the machine is exhausted. The session is as before. -/
  | nothing {p : Program} {e : Exhaustion} :
      (s.read text).outcome = .ok p → s.runUnder p = .error (.exhausted e) →
      Answered s text (.error e) s

theorem line_answered (s : Session) (text : String) :
    Answered s text (s.line text).2.1 (s.line text).2.2 := by
  have h : Performed s text _ (s.run text).outcome (s.run text).session :=
    performed s text (runProgram s.watch s.limits.evaluation)
  show Answered s text (answer (s.run text).outcome) (s.run text).session
  generalize (s.run text).outcome = outcome, (s.run text).session = next at h
  cases h with
  | succeeds hread hrun => exact .value hread hrun
  | rejected hread => exact .unread hread
  | @fails p f hread hrun =>
    cases f with
    | error e => exact .failed hread hrun rfl
    | tooDeep => exact .failed hread hrun rfl
    | exhausted e => exact .nothing hread hrun

end Lines

end Session

end Calx
