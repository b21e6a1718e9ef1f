import Calx.Diagnostic.Context

/-!
# Hints

A hint is a guess at the cause of a syntax error. It looks at what stands at the place of the error
and at whether a closing parenthesis could stand there instead.
-/

namespace Calx.Diagnostic

/-- A guess at the cause of a syntax error. -/
inductive Hint where
  /-- The text ends where a parenthesis could be closed. -/
  | openParenthesis
  /-- An equals sign stands outside a binding. -/
  | strayEquals
  /-- The word `in` stands outside a binding. -/
  | strayIn
  /-- A parenthesis is closed that was not opened. -/
  | extraParenthesis
deriving DecidableEq

/-- The wording of a hint. -/
def Hint.message : Hint → String
  | openParenthesis => "A parenthesis is left open"
  | strayEquals => "Bindings are written 'let name = expr' or 'def name(params) = expr'"
  | strayIn => "'in' only follows 'let name = expr'"
  | extraParenthesis => "There are more closing parentheses than opening ones"

/-- Whether `part` occurs in `cs`. -/
def occursIn (part cs : List Char) : Bool :=
  match cs with
  | [] => part.isEmpty
  | c :: rest => part.isPrefixOf (c :: rest) || occursIn part rest

/-- The hints for an error at which `found` stands. `closes` tells whether a closing parenthesis is
among what was expected. -/
def hints (found : String) (closes : Bool) : List Hint :=
  (if found = endOfInput ∧ closes then [.openParenthesis] else []) ++
  (if "'=".toList.isPrefixOf found.toList then [.strayEquals] else []) ++
  (if "'in".toList.isPrefixOf found.toList then [.strayIn] else []) ++
  (if "')".toList.isPrefixOf found.toList then [.extraParenthesis] else [])

end Calx.Diagnostic
