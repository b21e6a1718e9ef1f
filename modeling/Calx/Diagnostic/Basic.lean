import Calx.Diagnostic.Hint
import Calx.Text.Literal
import Calx.Token.Basic

/-!
# Diagnostics

A diagnostic tells where a text stops being a program, what could have stood there and what does.
`Diagnostic.display` is its text; `Diagnostic.ofExpectation` makes the one for a place at which the
grammar expected something else.

Where no alternative of a choice begins, what could have stood there is a listing of the grammar's
rules. The listing is left out: `Expectation.unlisted` stands for it, and all that is kept of it is
that it names a closing parenthesis (`Expectation.closes`).
-/

namespace Calx

/-- What the grammar expects at a place. -/
inductive Expectation where
  /-- A token of one kind. -/
  | token (kind : Token.Kind)
  /-- Anything that an expression can start with. -/
  | alternatives
  /-- Nothing more. -/
  | endOfText
deriving DecidableEq

namespace Expectation

/-- What stands for the listing of the rules that an expression can start with. -/
def unlisted : String := "<alternatives>"

/-- What is expected, in words. -/
def display : Expectation → String
  | token k => k.displayName
  | alternatives => unlisted
  | endOfText => "end of text"

/-- Whether a closing parenthesis is named in what is expected. The listing of the rules names it,
as the rule for an expression between parentheses is among them. -/
def closes : Expectation → Bool
  | token k => k = .closeParen
  | alternatives => true
  | endOfText => false

end Expectation

/-- A syntax error and where it is. -/
structure Diagnostic where
  /-- The error in short. -/
  message : String
  /-- Its offset in the text. -/
  location : Int
  /-- Its line, from 1. -/
  line : Int
  /-- Its column, from 1. -/
  column : Int
  /-- What was expected. -/
  expected : List String := []
  /-- What stands there. -/
  got : Option String := none
  /-- The lines around it. -/
  context : Option String := none
  /-- What may have caused it. -/
  suggestions : List String := []
deriving DecidableEq

namespace Diagnostic

/-- A part of a diagnostic on lines of its own; an absent or empty part leaves no line. -/
def paragraph (lead : String) : Option String → String
  | none => ""
  | some "" => ""
  | some s => "\n" ++ lead ++ s

/-- The whole text of a diagnostic. -/
def display (d : Diagnostic) : String :=
  "line " ++ toString d.line ++ ", column " ++ toString d.column ++ ": " ++ d.message ++
    paragraph "  Got: " d.got ++ paragraph "" d.context ++
    String.join (d.suggestions.map ("\n  Hint: " ++ ·))

/-- The diagnostic for the place at an offset, at which `expected` was expected. -/
def build (cs : List Char) (location : Nat) (expected : String) (closes : Bool) : Diagnostic :=
  let place := Text.placeAt cs location
  let got := found cs location
  { message := "expected " ++ expected
    location := location
    line := place.line
    column := place.column
    expected := [expected]
    got := some got
    context := some (contextBlock cs place.line place.column contextRadius)
    suggestions := (hints got closes).map Hint.message }

/-- The diagnostic for a place at which the grammar expected something else. -/
def ofExpectation (cs : List Char) (location : Nat) (e : Expectation) : Diagnostic :=
  build cs location e.display e.closes

/-- Whether a closing parenthesis, between its quotes, shows in the listing of what was expected. -/
def listsClosing (expected : List String) : Bool :=
  occursIn "')'".toList (Text.literalList expected).toList

/-- The wordings of the hints for what stands at a place and a list of what was expected there. -/
def suggest (got : String) (expected : List String) : List String :=
  (hints got (listsClosing expected)).map Hint.message

end Diagnostic

end Calx
