import Calx.Session
import Calx.Text.Utf8

/-!
# Scripts

What the program prints for a script, and how it ends. A script is UTF-8 text; its line ends are
unified before anything else is done with it. Errors are reported on the output, and the program
then ends with status 1.
-/

namespace Calx.CommandLine

/-- What stands under a name in the file system. -/
inductive Entry where
  /-- Nothing. -/
  | missing
  /-- A directory. -/
  | directory
  /-- A file, under a name that only a directory can have. -/
  | notDirectory
  /-- A file. -/
  | file (bytes : ByteArray)

/-- How the program breaks off without a report. -/
inductive Crash where
  /-- A directory is read as a file. -/
  | directory
  /-- A file is read as a directory. -/
  | notDirectory
  /-- A tree goes too deep. -/
  | tooDeep
  /-- The machine is exhausted. -/
  | exhausted (e : Exhaustion)
deriving DecidableEq

/-- How the program ends. -/
inductive Ending where
  /-- With a status. -/
  | exit (status : Nat)
  /-- Without one. -/
  | crash (c : Crash)
deriving DecidableEq

/-- What the program prints, and how it ends. -/
structure Transcript where
  /-- What is printed. -/
  output : String
  /-- What is printed about misuse. -/
  complaint : String := ""
  /-- How the program ends. -/
  ending : Ending
deriving DecidableEq

namespace Transcript

/-- The transcript of a program that ends well. -/
def success (output : String) : Transcript :=
  ⟨output, "", .exit 0⟩

/-- The transcript of a program that reports an error. -/
def failure (output : String) : Transcript :=
  ⟨output, "", .exit 1⟩

/-- The transcript of a program that breaks off. -/
def broken (output : String) (c : Crash) : Transcript :=
  ⟨output, "", .crash c⟩

/-- The transcript with more printed in front. -/
def after (output : String) (t : Transcript) : Transcript :=
  { t with output := output ++ t.output }

end Transcript

/-! ## Reading a script -/

/-- The text of a file that cannot be decoded. -/
def decodingText (name : String) (f : Utf8.Fault) : String :=
  let place :=
    if f.length = 1 then
      "byte 0x" ++ String.ofList (Text.hexDigits 2 f.byte.toNat) ++ " in position " ++
        toString f.offset
    else
      "bytes in position " ++ toString f.offset ++ "-" ++ toString (f.offset + f.length - 1)
  "Error: Cannot decode file '" ++ name ++ "': 'utf-8' codec can't decode " ++ place ++ ": " ++
    f.defect.message ++ "\n  Hint: Make sure the file is a text file with UTF-8 encoding\n"

/-- The text of a script that is not found. -/
def notFoundText (name : String) : String :=
  "Error: Script file '" ++ name ++ "' not found\n" ++
    "  Hint: Check the file path and make sure the file exists\n"

/-- The text of a script that does not exist when the program starts. -/
def absentText (name : String) : String :=
  "Error: Script file '" ++ name ++ "' does not exist\n"

/-- The text of the script that stands under a name, or how the program ends without it. -/
def sourceOf (name : String) : Entry → Except Transcript String
  | .missing => .error (.failure (notFoundText name))
  | .directory => .error (.broken "" .directory)
  | .notDirectory => .error (.broken "" .notDirectory)
  | .file bytes =>
    match Utf8.decode bytes with
    | .error f => .error (.failure (decodingText name f))
    | .ok cs => .ok (String.ofList (Text.unifyLineEnds cs))

/-! ## What to do with a script -/

/-- The program reports an error in a script. -/
def reporting (name : String) (r : Report) : Transcript :=
  .failure (r.display (some name) ++ "\n")

/-- How wide the offsets in a listing of tokens are. -/
def offsetWidth : Nat := 5

/-- The line of a token in a listing. -/
def tokenLine (s : Span) : String :=
  Text.padLeft offsetWidth (toString s.start) ++ " " ++
    Text.padLeft offsetWidth (toString s.stop) ++ "  " ++ s.token.display ++ "\n"

/-- Lists the tokens of a script. -/
def listTokens (name source : String) (tracing : Bool) : Transcript :=
  let stream := Stream.ofText source
  let line := fun s => (if tracing then Event.log [.token s] else "") ++ tokenLine s
  let listing := String.join (stream.spans.map line)
  match stream.fault with
  | none => .success listing
  | some e => (reporting name e.report).after listing

/-- Shows the program in a script. A program too deep to be written out breaks off. -/
def showProgram (name source : String) (s : Session) : Transcript :=
  match s.read source with
  | ⟨events, .error e⟩ => (reporting name e.report).after (Event.log events)
  | ⟨events, .ok p⟩ =>
    Transcript.after (Event.log events)
      (if p.depth ≤ s.limits.writing then .success (p.render ++ "\n") else .broken "" .tooDeep)

/-- What is shown for a script that has been run, with how to show what it gives. -/
def conclude {α : Type} (name : String) (present : α → String) (reply : Reply α) : Transcript :=
  Transcript.after (Event.log reply.trace) <|
    match reply.outcome with
    | .ok a => .success (present a)
    | .error t =>
      match t.report with
      | .ok r => reporting name r
      | .error e => .broken "" (.exhausted e)

variable [Machine]

/-- Runs a script for its last value. -/
def runScript (name source : String) (s : Session) : Transcript :=
  conclude name (fun v => v.display ++ "\n") (s.run source)

/-- Runs a script for all its values. -/
def runScriptAll (name source : String) (s : Session) : Transcript :=
  conclude name (fun vs => String.join (vs.map fun v => v.display ++ "\n")) (s.runAll source)

end Calx.CommandLine
