import Calx.Report
import Calx.Eval.Basic

/-!
# Sessions

A session keeps an environment from one text to the next. A text that is not read or fails leaves
the environment as it was, whatever its first statements have bound. `Session.line` answers one line
of input; `Session.run` and `Session.runAll` run a text for its last value or for all of its values.
-/

namespace Calx

/-- The depths that a session goes to. -/
structure Limits where
  /-- How deep a text may nest. -/
  nesting : Nat
  /-- How many evaluations may be nested. -/
  evaluation : Nat
  /-- How deep a tree can be written out. -/
  writing : Nat
deriving DecidableEq

/-- The depths that a session goes to unless it is told otherwise. -/
def Limits.standard : Limits := ⟨250, 1000, 1000⟩

/-- Why a text gives no value. -/
inductive Trouble where
  /-- The text is not read. -/
  | rejected (r : Rejection)
  /-- The evaluation fails. -/
  | failed (f : Failure)
deriving DecidableEq

/-- The report of a text without a value. -/
def Trouble.report : Trouble → Except Exhaustion Report
  | rejected r => .ok r.report
  | failed f => f.report

/-- An environment that is kept, and how texts are run under it. -/
structure Session where
  /-- The environment. -/
  env : Environment
  /-- Whether events are reported. -/
  tracing : Bool
  /-- How deep to go. -/
  limits : Limits

/-- What a session does with a text: the events, what it ends in, and the session after it. -/
structure Reply (α : Type) where
  /-- The events, in order. -/
  trace : List Event
  /-- What the text gives. -/
  outcome : Except Trouble α
  /-- The session after the text. -/
  session : Session

/-- A text that is read and reported: the events, and what is read. -/
structure Reading (α : Type) where
  /-- The events, in order. -/
  trace : List Event
  /-- What is read. -/
  outcome : Except Rejection α

/-- Reports what has been read. A tree too deep to be written out counts as a text that nests too
deep. -/
def Reading.announce {α : Type} (w : Run.Watch) (events : List Event) (a : α) : Reading α :=
  match Run.reportAll w events with
  | ⟨trace, .ok _⟩ => ⟨trace, .ok a⟩
  | ⟨trace, .error _⟩ => ⟨trace, .error .tooDeep⟩

namespace Session

/-- A session without bindings. -/
def fresh (tracing : Bool) (limits : Limits) : Session :=
  ⟨.empty, tracing, limits⟩

/-- How the runs of a session are watched. -/
def watch (s : Session) : Run.Watch :=
  ⟨s.tracing, s.limits.writing⟩

/-- Reads a program and reports its statements. -/
def read (s : Session) (text : String) : Reading Program :=
  match Program.ofText s.limits.nesting text with
  | .error e => ⟨[], .error e⟩
  | .ok p => .announce s.watch (p.map .read) p

/-- Reads an expression and reports it. -/
def readExpr (s : Session) (text : String) : Reading Expr :=
  match Expr.ofText s.limits.nesting text with
  | .error e => ⟨[], .error e⟩
  | .ok e => .announce s.watch [.readExpr e] e

/-- Reads a text and runs it. The environment changes only if the run succeeds. -/
def perform {α : Type} (s : Session) (text : String)
    (run : Environment → Program → Run (α × Environment)) : Reply α :=
  match s.read text with
  | ⟨events, .error e⟩ => ⟨events, .error (.rejected e), s⟩
  | ⟨events, .ok p⟩ =>
    match run s.env p with
    | ⟨more, .error e⟩ => ⟨events ++ more, .error (.failed e), s⟩
    | ⟨more, .ok (a, env)⟩ => ⟨events ++ more, .ok a, { s with env }⟩

variable [Machine]

/-- Runs a text for the value of its last statement. -/
def run (s : Session) (text : String) : Reply Value :=
  s.perform text (runProgram s.watch s.limits.evaluation)

/-- Runs a text for the value of every statement. -/
def runAll (s : Session) (text : String) : Reply (List Value) :=
  s.perform text (Calx.runAll s.watch s.limits.evaluation)

/-- What is shown for a text that a session has run: its value, or a report. Only an exhausted
machine shows nothing. -/
def answer : Except Trouble Value → Except Exhaustion String
  | .ok v => .ok ("=> " ++ v.display)
  | .error t => t.report.map fun r => r.display none

/-- Answers one line of input: the events, the line that is shown, and the session after it. -/
def line (s : Session) (text : String) : List Event × Except Exhaustion String × Session :=
  let reply := s.run text
  (reply.trace, answer reply.outcome, reply.session)

end Session

end Calx
