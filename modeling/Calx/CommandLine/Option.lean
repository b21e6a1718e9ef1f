import Calx.Text.Digit
import Calx.Text.Literal

/-!
# Command-line arguments

`Request.ofArguments` reads the arguments of the program. Options may stand before or after the
script; a long option may be cut short as long as only one option starts that way; short options may
share a dash; and after `--` nothing is an option. An option that ends the program does so where it
stands, so a fault behind it is not met.
-/

namespace Calx.CommandLine

/-- The options. -/
inductive Flag where
  /-- Show the help text. -/
  | help
  /-- Start a conversation. -/
  | interactive
  /-- Show the tokens of the script. -/
  | tokens
  /-- Show the program in the script. -/
  | parse
  /-- Show the value of every statement. -/
  | all
  /-- Report events. -/
  | debug
  /-- Show the version. -/
  | version
deriving DecidableEq

/-- The options with their spellings, in the order of the help text. -/
def Flag.spellings : List (Flag × List String) :=
  [(.help, ["-h", "--help"]), (.interactive, ["-i", "--interactive"]), (.tokens, ["--tokens"]),
    (.parse, ["--parse"]), (.all, ["--all"]), (.debug, ["--debug"]), (.version, ["--version"])]

/-- Every spelling of an option. -/
def Flag.table : List (String × Flag) :=
  Flag.spellings.flatMap fun (f, names) => names.map (·, f)

/-- An option by all its spellings. -/
def Flag.title (f : Flag) : String :=
  "/".intercalate ((Flag.spellings.lookup f).getD [])

/-- The option that a spelling stands for. -/
def Flag.ofSpelling? (s : String) : Option Flag :=
  Flag.table.lookup s

/-! ## Words -/

/-- What an option has attached to it. -/
inductive Attached where
  /-- Nothing. -/
  | nothing
  /-- A value behind an equals sign. -/
  | value (cs : List Char)
  /-- More short options behind a short one. -/
  | more (cs : List Char)

/-- What an argument is. -/
inductive Word where
  /-- The name of a script. -/
  | operand (s : String)
  /-- The mark after which nothing is an option. -/
  | separator
  /-- An option, and what is attached to it. -/
  | flag (f : Flag) (attached : Attached)
  /-- An option that there is not. -/
  | unknown (s : String)

/-- Whether an argument starts with two dashes. -/
def isLong (cs : List Char) : Bool :=
  "--".toList.isPrefixOf cs

/-- A text up to an equals sign, and what follows the sign. -/
def splitEquals (cs : List Char) : Option (List Char × List Char) :=
  match cs.dropWhile (· ≠ '=') with
  | [] => none
  | _ :: rest => some (cs.takeWhile (· ≠ '='), rest)

/-- Whether an argument is a negative number in plain digits, perhaps with a point and perhaps with
a line feed at its end. -/
def isNegativeNumber (cs : List Char) : Bool :=
  match cs with
  | '-' :: body =>
    let body := if body.getLast? = some '\n' then body.dropLast else body
    let tail := body.dropWhile Text.isDecimalDigit
    match tail with
    | [] => body ≠ []
    | '.' :: decimals => decimals ≠ [] && decimals.all Text.isDecimalDigit
    | _ => false
  | _ => false

/-- The options that an argument with two dashes may be short for, by their spellings, and what is
attached. -/
def abbreviated (cs : List Char) : List (String × Flag) × Attached :=
  let startingWith (start : List Char) :=
    Flag.table.filter fun entry => start.isPrefixOf entry.1.toList
  match splitEquals cs with
  | some (start, value) => (startingWith start, .value value)
  | none => (startingWith cs, .nothing)

/-- The short option that starts an argument with one dash, and the rest of the argument. -/
def clustered (cs : List Char) : List (String × Flag) × Attached :=
  (Flag.table.filter fun entry => entry.1.toList = cs.take 2, .more (cs.drop 2))

/-- The option before an equals sign, if it is spelled in full. Behind a short option the sign
changes nothing: what follows it, if anything does, are more short options. -/
def assigned? (cs : List Char) : Option Word := do
  let (start, value) ← splitEquals cs
  let f ← Flag.ofSpelling? (String.ofList start)
  return .flag f (if isLong start || value = [] then .value value else .more value)

/-- What an argument is that starts with a dash, goes on behind it and is no option in full. -/
def classifyDashed (s : String) : Except String Word :=
  let cs := s.toList
  match assigned? cs with
  | some w => .ok w
  | none =>
    match if isLong cs then abbreviated cs else clustered cs with
    | ([(_, f)], attached) => .ok (.flag f attached)
    | ([], _) =>
      if isNegativeNumber cs || cs.contains ' ' then .ok (.operand s) else .ok (.unknown s)
    | (several, _) =>
      .error ("ambiguous option: " ++ s ++ " could match " ++
        ", ".intercalate (several.map Prod.fst))

/-- What an argument is. -/
def classify (s : String) : Except String Word :=
  match Flag.ofSpelling? s with
  | some f => .ok (.flag f .nothing)
  | none =>
    match s.toList with
    | '-' :: _ :: _ => classifyDashed s
    | _ => .ok (.operand s)

/-- What each argument is. -/
def words : List String → Except String (List Word)
  | [] => .ok []
  | "--" :: rest => .ok (.separator :: rest.map .operand)
  | s :: rest => do
    let w ← classify s
    return w :: (← words rest)

/-! ## Requests -/

/-- What a run of the program is asked for. -/
structure Options where
  /-- The script. -/
  script : Option String := none
  /-- Whether to start a conversation. -/
  interactive : Bool := false
  /-- Whether to show the tokens. -/
  tokens : Bool := false
  /-- Whether to show the program. -/
  parse : Bool := false
  /-- Whether to show every value. -/
  all : Bool := false
  /-- Whether to report events. -/
  debug : Bool := false
deriving DecidableEq

/-- What the arguments ask for. -/
inductive Request where
  /-- A run of the program. -/
  | run (o : Options)
  /-- The help text. -/
  | help
  /-- The version. -/
  | version
  /-- Something that cannot be asked for. -/
  | misuse (message : String)
deriving DecidableEq

/-- The complaint about a value that an option does not take. -/
def refusedValue (f : Flag) (value : List Char) : String :=
  "argument " ++ f.title ++ ": ignored explicit argument " ++ Text.literal (String.ofList value)

/-- The options in a cluster behind the dash and the option `f`: each character is one. What starts
with a character that is none is refused as a value of the option before it. -/
def Flag.cluster (f : Flag) : List Char → Except String (List Flag)
  | [] => .ok [f]
  | c :: cs =>
    match Flag.ofSpelling? (String.ofList ['-', c]) with
    | none => .error (refusedValue f (c :: cs))
    | some g => (cluster g cs).map (f :: ·)

/-- The options that an option and what is attached to it stand for. -/
def Flag.expand (f : Flag) : Attached → Except String (List Flag)
  | .nothing => .ok [f]
  | .value cs => .error (refusedValue f cs)
  | .more cs => f.cluster cs

/-- Sets what an option asks for. An option that ends the program is a request of its own. -/
def Options.set (o : Options) : Flag → Except Request Options
  | .help => .error .help
  | .version => .error .version
  | .interactive => .ok { o with interactive := true }
  | .tokens => .ok { o with tokens := true }
  | .parse => .ok { o with parse := true }
  | .all => .ok { o with all := true }
  | .debug => .ok { o with debug := true }

/-- Sets what some options ask for, in order. -/
def Options.setAll (o : Options) : List Flag → Except Request Options
  | [] => .ok o
  | f :: fs => do
    let next ← o.set f
    next.setAll fs

/-- Reads the words from left to right. `pending` tells whether the script is still to come, and
`extra` holds the arguments that have no meaning. -/
def Request.ofWords (o : Options) (pending : Bool) (extra : List String) : List Word → Request
  | [] =>
    if extra = [] then .run o
    else .misuse ("unrecognized arguments: " ++ " ".intercalate extra)
  | .flag f attached :: rest =>
    match f.expand attached with
    | .error message => .misuse message
    | .ok flags =>
      match o.setAll flags with
      | .error request => request
      | .ok next => ofWords next pending extra rest
  | .unknown s :: rest => ofWords o pending (extra ++ [s]) rest
  | .operand s :: .separator :: rest =>
    if pending then ofWords { o with script := some s } false extra rest
    else ofWords o false (extra ++ [s, "--"]) rest
  | .operand s :: rest =>
    if pending then ofWords { o with script := some s } false extra rest
    else ofWords o false (extra ++ [s]) rest
  | .separator :: rest => ofWords o pending (if pending then extra else extra ++ ["--"]) rest

/-- What the arguments of the program ask for. -/
def Request.ofArguments (arguments : List String) : Request :=
  match words arguments with
  | .error message => .misuse message
  | .ok ws => ofWords {} true [] ws

end Calx.CommandLine
