import Calx.CommandLine.Option
import Calx.CommandLine.Help
import Calx.CommandLine.Script
import Calx.Console

/-!
# The command line

`execute` is the whole program as a function: of its arguments, of what stands under the name of the
script, and of the lines that are typed in. With a script it lists, shows or runs it; without one it
holds a conversation.
-/

namespace Calx.CommandLine

variable [Machine]

/-- What is done with a script: the tokens come before the program, and the program before a run. -/
def executeScript (o : Options) (limits : Limits) (name : String) (entry : Entry) : Transcript :=
  match entry with
  | .missing => .failure (absentText name)
  | entry =>
    match sourceOf name entry with
    | .error t => t
    | .ok source =>
      let session := Session.fresh o.debug limits
      if o.tokens then listTokens name source o.debug
      else if o.parse then showProgram name source session
      else if o.all then runScriptAll name source session
      else runScript name source session

/-- A conversation over some lines. -/
def executeConsole (o : Options) (limits : Limits) (lines : List String) : Transcript :=
  match Console.converse (.fresh o.debug limits) lines with
  | (shown, none) => .success (Console.banner o.debug ++ shown)
  | (shown, some e) => .broken (Console.banner o.debug ++ shown) (.exhausted e)

/-- What the options ask to be done: a script without a name is none. -/
def Options.scriptName? (o : Options) : Option String :=
  o.script.filter (· ≠ "")

/-- The whole program. -/
def execute (arguments : List String) (files : String → Entry) (lines : List String)
    (limits : Limits) : Transcript :=
  match Request.ofArguments arguments with
  | .help => .success helpText
  | .version => .success (Console.version ++ "\n")
  | .misuse message => ⟨"", misuseText message, .exit 2⟩
  | .run o =>
    match o.scriptName? with
    | some name => executeScript o limits name (files name)
    | none => executeConsole o limits lines

end Calx.CommandLine
