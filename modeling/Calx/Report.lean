import Calx.Grammar.Program
import Calx.Eval.Failure

/-!
# Error reports

A report is how an error is told to the user: the family of the error, the script it is in, if it is
in one, and its message.
-/

namespace Calx

/-- The families of errors. -/
inductive Family where
  /-- No token can be cut. -/
  | lexical
  /-- The text does not follow the grammar. -/
  | parsing
  /-- The program fails. -/
  | evaluation
  /-- Any other error. -/
  | other
deriving DecidableEq

/-- The name of a family. -/
def Family.name : Family → String
  | lexical => "LexicalError"
  | parsing => "ParseError"
  | evaluation => "EvalError"
  | other => "Error"

/-- An error as it is told. -/
structure Report where
  /-- The family of the error. -/
  family : Family
  /-- What is wrong. -/
  message : String
deriving DecidableEq

namespace Report

/-- The wording for a text that nests too deep. -/
def nestingMessage : String := "maximum nesting depth exceeded"

/-- The wording for an evaluation that goes too deep. -/
def recursionMessage : String := "maximum recursion depth exceeded"

/-- The text of a report, with the script that the error is in. A script without a name is none. -/
def display (r : Report) (script : Option String) : String :=
  let place := match script with
    | none => ""
    | some "" => ""
    | some s => " in '" ++ s ++ "'"
  r.family.name ++ place ++ ": " ++ r.message

end Report

/-- The report of a lexical error. -/
def LexError.report (e : LexError) : Report :=
  ⟨.lexical, e.message⟩

/-- The report of a syntax error. -/
def Diagnostic.report (d : Diagnostic) : Report :=
  ⟨.parsing, d.display⟩

/-- The report of an evaluation error. -/
def EvalError.report (e : EvalError) : Report :=
  ⟨.evaluation, e.message⟩

/-- The report of a text that is not read. -/
def Rejection.report : Rejection → Report
  | lexical e => e.report
  | unfit d => d.report
  | tooDeep => ⟨.parsing, Report.nestingMessage⟩

/-- The report of a failed evaluation. An exhausted machine is not reported: it ends the program. -/
def Failure.report : Failure → Except Exhaustion Report
  | error e => .ok e.report
  | tooDeep => .ok ⟨.evaluation, Report.recursionMessage⟩
  | exhausted e => .error e

end Calx
