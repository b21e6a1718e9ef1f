import Calx.Eval.Operator
import Calx.Program.Basic
import Calx.Token.Stream

/-!
# Traced runs

A run is what a computation does: the events it reports, in order, and what it ends in. Runs are put
together one after the other; the first failure ends the whole and keeps the events up to then.
Reporting a tree writes it out, so a tree too deep to be written makes the run fail instead.
-/

namespace Calx

/-- What can happen on the way. -/
inductive Event where
  /-- A token is cut. -/
  | token (span : Span)
  /-- A statement is read. -/
  | read (s : Stmt)
  /-- An expression is read. -/
  | readExpr (e : Expr)
  /-- A statement is entered. -/
  | statement (s : Stmt)
  /-- An expression is entered. -/
  | expression (e : Expr)
  /-- The body of a function is entered. -/
  | call (f : Function)
deriving DecidableEq

namespace Event

/-- The line that reports an event. -/
def display : Event → String
  | token s =>
    "Token: " ++ s.token.display ++ " at " ++ toString s.start ++ ".." ++ toString s.stop
  | read s => "Parsed: " ++ s.render
  | readExpr e => "Parsed: " ++ e.render
  | statement s => "Evaluating: " ++ s.render
  | expression e => "Evaluating: " ++ e.render
  | call f => "Calling: " ++ f.signature

/-- The depth of the tree that the report writes out. -/
def depth : Event → Nat
  | token _ | call _ => 0
  | read s | statement s => s.depth
  | readExpr e | expression e => e.depth

/-- The lines that report some events, each with its line end. -/
def log (events : List Event) : String :=
  String.join (events.map fun e => e.display ++ "\n")

end Event

/-- What a computation does. -/
structure Run (α : Type) where
  /-- The events, in order. -/
  trace : List Event
  /-- What the computation ends in. -/
  outcome : Except Failure α

namespace Run

variable {α β : Type}

/-- The run that reports nothing and ends in `a`. -/
def done (a : α) : Run α := ⟨[], .ok a⟩

/-- The run that reports nothing and ends in a given way. -/
def ofExcept (x : Except Failure α) : Run α := ⟨[], x⟩

/-- The run that fails at once. -/
def fail (e : Failure) : Run α := ⟨[], .error e⟩

/-- A run and then, unless it fails, the run for its result. -/
def andThen (r : Run α) (f : α → Run β) : Run β :=
  match r.outcome with
  | .ok a => ⟨r.trace ++ (f a).trace, (f a).outcome⟩
  | .error e => ⟨r.trace, .error e⟩

instance : Monad Run where
  pure := done
  bind := andThen

/-- How a run is watched: whether it reports events, and how deep a tree can be written out. -/
structure Watch where
  /-- Whether events are reported. -/
  tracing : Bool
  /-- The depth of the deepest tree that can be written out. -/
  writing : Nat

/-- Reports an event, if the run is watched. -/
def report (w : Watch) (e : Event) : Run Unit :=
  if w.tracing then
    if e.depth ≤ w.writing then ⟨[e], .ok ()⟩ else fail .tooDeep
  else done ()

/-- Reports some events in order. -/
def reportAll (w : Watch) : List Event → Run Unit
  | [] => done ()
  | e :: es => do
    report w e
    reportAll w es

end Run

end Calx
