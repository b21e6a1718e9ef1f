import Calx.CommandLine.Basic

/-!
# The program

The outer layer: reads the arguments, the script and the lines that are typed in, prints what
`Calx.CommandLine` and `Calx.Console` answer, and ends with their status.
-/

namespace Calx

open CommandLine

/-- What stands under a name in the file system. -/
def lookUp (name : String) : IO Entry := do
  try
    return .file (← IO.FS.readBinFile name)
  catch
    | .noFileOrDirectory .. => return .missing
    | .inappropriateType .. => return .directory
    | e => throw e

/-- The status of a program that breaks off. -/
def crashStatus : UInt32 := 1

/-- The message of a program that breaks off. -/
def CommandLine.Crash.describe : Crash → String
  | .directory => "is a directory"
  | .notDirectory => "is not a directory"
  | .tooDeep => Report.recursionMessage
  | .exhausted .length => "text too long"
  | .exhausted .memory => "out of memory"

/-- Prints a transcript; the result is the status. -/
def present (t : Transcript) : IO UInt32 := do
  IO.print t.output
  IO.eprint t.complaint
  match t.ending with
  | .exit status => return UInt32.ofNat status
  | .crash c =>
    IO.eprintln ("calx: " ++ c.describe)
    return crashStatus

/-- Holds a conversation on the standard input. -/
partial def converse (input : IO.FS.Stream) (s : Session) : IO UInt32 := do
  IO.print Console.prompt
  (← IO.getStdout).flush
  let line ← input.getLine
  if line.isEmpty then
    IO.print Console.farewell
    return 0
  let text := if line.back = '\n' then (line.dropEnd 1).toString else line
  let (shown, next) := Console.respond s text
  IO.print shown
  match next with
  | .goOn s => converse input s
  | .quit => return 0
  | .exhausted e =>
    IO.eprintln ("calx: " ++ (Crash.exhausted e).describe)
    return crashStatus

end Calx

open Calx CommandLine in
/-- Runs the program on its arguments. -/
def main (arguments : List String) : IO UInt32 := do
  match Request.ofArguments arguments with
  | .run o =>
    match o.scriptName? with
    | some name =>
      let entry ← lookUp name
      present (executeScript o .standard name entry)
    | none =>
      IO.print (Console.banner o.debug)
      converse (← IO.getStdin) (.fresh o.debug .standard)
  | _ => present (execute arguments (fun _ => .missing) [] .standard)
