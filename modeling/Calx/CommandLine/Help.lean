/-!
# Help texts

What the program tells about its own use.
-/

namespace Calx.CommandLine

/-- How the program is called. -/
def usage : String :=
  "usage: calx [-h] [-i] [--tokens] [--parse] [--all] [--debug] [--version]\n" ++
  "            [script]\n"

/-- The help text. -/
def helpText : String :=
  usage ++
  "\n" ++
  "Calx - a small expression language interpreter\n" ++
  "\n" ++
  "positional arguments:\n" ++
  "  script             Calx script file to execute\n" ++
  "\n" ++
  "options:\n" ++
  "  -h, --help         show this help message and exit\n" ++
  "  -i, --interactive  Start interactive mode\n" ++
  "  --tokens           Lex file and show (start, token, end) spans\n" ++
  "  --parse            Parse file and show the AST\n" ++
  "  --all              Print the value of every statement, not just the last\n" ++
  "  --debug            Enable debug output for all stages\n" ++
  "  --version          show program's version number and exit\n" ++
  "\n" ++
  "Examples:\n" ++
  "  calx script.calx            # Run a Calx script\n" ++
  "  calx -i                     # Interactive mode\n" ++
  "  calx --tokens script.calx   # Show the token stream\n" ++
  "  calx --parse script.calx    # Parse and show the AST\n" ++
  "  calx --all script.calx      # Show the value of every statement\n" ++
  "  calx --debug script.calx    # Run with debug output\n" ++
  "        \n"

/-- What is told about arguments that ask for nothing. -/
def misuseText (message : String) : String :=
  usage ++ "calx: error: " ++ message ++ "\n"

end Calx.CommandLine
