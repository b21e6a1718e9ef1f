import Calx.Text.Lines

/-!
# Source context

What a diagnostic quotes of the text: `contextBlock`, the lines around an error with their numbers
and a caret under the error, and `found`, the start of what stands at a place.
-/

namespace Calx.Diagnostic

/-- How many lines a diagnostic shows on each side of the line of the error. -/
def contextRadius : Int := 2

/-- The columns that a line number takes, without the colon and the space after it. -/
def numberWidth : Nat := 4

/-- The line with index `i` from 0, with its number in front. -/
def numberedLine (i : Nat) (line : List Char) : String :=
  Text.padLeft numberWidth (toString (i + 1)) ++ ": " ++ String.ofList line

/-- The line that marks a column with a caret. -/
def caretLine (column : Int) : String :=
  "".pushn ' ' (numberWidth + 2 + (column - 1).toNat) ++ "^"

/-- The lines at most `radius` away from `line` with their numbers, and the caret below `line`. -/
def contextLines (cs : List Char) (line column radius : Int) : List String :=
  (Text.lines cs).zipIdx.flatMap fun (text, i) =>
    let number : Int := i + 1
    if line - radius ≤ number ∧ number ≤ line + radius then
      numberedLine i text :: (if number = line then [caretLine column] else [])
    else []

/-- The context of a place in a text. -/
def contextBlock (cs : List Char) (line column radius : Int) : String :=
  "\n".intercalate (contextLines cs line column radius)

/-- What stands where nothing is left of a text. -/
def endOfInput : String := "end of input"

/-- How many characters `found` quotes at most. -/
def foundWidth : Nat := 10

/-- What stands at a place: the start of the rest of its line, or the end of the input. -/
def found (cs : List Char) (location : Nat) : String :=
  match Text.trimLeft (cs.drop location) with
  | [] => endOfInput
  | rest => "'" ++ String.ofList ((Text.firstLine rest).take foundWidth) ++ "'"

end Calx.Diagnostic
