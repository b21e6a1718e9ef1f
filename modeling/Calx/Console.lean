import Calx.Session

/-!
# The console

A console is a session that is typed in. A line is a command, blank, or a text to be answered; the
session lasts until the command `:quit` or the end of the input. `respond` is one step, `converse` a
whole conversation.
-/

namespace Calx.Console

/-- The name and the version of the program. -/
def version : String := "Calx v0.1.0"

/-- What asks for a line. -/
def prompt : String := ">> "

/-- What is shown before the first line. -/
def banner (tracing : Bool) : String :=
  version ++ " - Interactive Mode\nType ':quit' to exit, ':help' for commands\n" ++
    (if tracing then "Debug mode enabled\n" else "") ++ "\n"

/-- What is shown at the end of the input. -/
def farewell : String := "\nGoodbye!\n"

/-- What the command `:help` shows. -/
def help : String :=
  "REPL Commands:\n" ++
  "  :env              - Show current environment\n" ++
  "  :help             - Show this help\n" ++
  "  :quit             - Exit REPL\n" ++
  "\n" ++
  "Language features:\n" ++
  "  let x = 1 + 2              - Binding, visible to later lines\n" ++
  "  let y = 2 in y * y         - Local binding\n" ++
  "  def f(a, b) = a * b + x    - Function definition\n" ++
  "  f(3, 4)                    - Function call\n" ++
  "  \"ab\" + \"cd\"; \"ab\" * 3      - String concatenation and repetition\n"

/-- The longest value that a listing of bindings shows whole. -/
def listedWidth : Nat := 60

/-- The mark of a value that a listing cuts. -/
def ellipsis : String := "..."

/-- A value in a listing of bindings, cut if it is too long. -/
def listed (v : Value) : String :=
  let shown := v.display
  if listedWidth < shown.length then
    String.ofList (shown.toList.take (listedWidth - ellipsis.length)) ++ ellipsis
  else shown

/-- The listing of the bindings of an environment. -/
def listing (env : Environment) : String :=
  let lines := env.bindings.map fun b => "  " ++ b.1 ++ " = " ++ listed b.2 ++ "\n"
  "Current environment:\n" ++ (if lines = [] then "  (no bindings)\n" else String.join lines)

/-- The commands. -/
inductive Command where
  /-- Show the environment. -/
  | env
  /-- Show the help text. -/
  | help
  /-- End the conversation. -/
  | quit
deriving DecidableEq

/-- The words of the commands. -/
def commands : List (String × Command) :=
  [(":env", .env), (":help", .help), (":quit", .quit)]

/-- The words that complete the beginning of a word: keywords and commands. -/
def completions (start : String) : List String :=
  (Token.keywords.map Prod.fst ++ commands.map Prod.fst).filter fun word =>
    start.toList.isPrefixOf word.toList

/-- How a conversation goes on. -/
inductive Next where
  /-- With the next line. -/
  | goOn (s : Session)
  /-- Not at all. -/
  | quit
  /-- Not at all, since the machine is exhausted. -/
  | exhausted (e : Exhaustion)

variable [Machine]

/-- What is shown for a line, and how the conversation goes on. -/
def respond (s : Session) (line : String) : String × Next :=
  let word := Text.trim line.toList
  if word = [] then ("", .goOn s)
  else
    match commands.lookup (String.ofList word) with
    | some .env => (listing s.env, .goOn s)
    | some .help => (help, .goOn s)
    | some .quit => ("", .quit)
    | none =>
      match s.line line with
      | (events, .ok shown, next) => (Event.log events ++ shown ++ "\n\n", .goOn next)
      | (events, .error e, _) => (Event.log events, .exhausted e)

/-- What is shown for the lines that are typed in, and what the machine ran out of, if it did. -/
def converse (s : Session) : List String → String × Option Exhaustion
  | [] => (prompt ++ farewell, none)
  | line :: rest =>
    match respond s line with
    | (shown, .goOn next) =>
      let (more, ending) := converse next rest
      (prompt ++ shown ++ more, ending)
    | (shown, .quit) => (prompt ++ shown, none)
    | (shown, .exhausted e) => (prompt ++ shown, some e)

end Calx.Console
