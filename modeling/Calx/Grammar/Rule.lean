import Calx.Diagnostic.Basic
import Calx.Token.Quoted

/-!
# Grammar rules

A rule reads tokens from the front of a list and builds a value, or finds that they do not fit. It
runs under the error that stops the token stream, if one does: a rule that needs a token where none
is left then abandons the whole text, since no other way to read it can succeed. A rule that merely
does not fit can be given up (`Rule.optional`, `Rule.many`), and reading goes on where it began.
-/

namespace Calx

/-- Why a text is abandoned. -/
inductive Abandonment where
  /-- A token was needed where none can be cut. -/
  | lexical (error : LexError)
  /-- The text nests too deep. -/
  | tooDeep
deriving DecidableEq

/-- What a rule ends in. -/
inductive Outcome (α : Type) where
  /-- The rule fits; the tokens behind it are left. -/
  | fits (value : α) (rest : List Token)
  /-- The rule does not fit where `rest` begins. -/
  | misfits (rest : List Token) (expected : Expectation)
  /-- The text is abandoned. -/
  | abandoned (reason : Abandonment)

/-- A grammar rule: a reader of tokens, under the error that stops the token stream. -/
def Rule (α : Type) : Type :=
  Option LexError → List Token → Outcome α

namespace Rule

variable {α β : Type}

/-- The rule that reads nothing. -/
def succeed (a : α) : Rule α := fun _ ts => .fits a ts

/-- The rule `r`, and then the rule for the value it builds. -/
def andThen (r : Rule α) (f : α → Rule β) : Rule β := fun fault ts =>
  match r fault ts with
  | .fits a rest => f a fault rest
  | .misfits rest e => .misfits rest e
  | .abandoned why => .abandoned why

instance : Monad Rule where
  pure := succeed
  bind := andThen

/-- The rule that abandons every text. -/
def tooDeep : Rule α := fun _ _ => .abandoned .tooDeep

/-- The rule for one token that `pick` accepts. -/
def next (expected : Expectation) (pick : Token → Option α) : Rule α := fun fault ts =>
  match ts with
  | [] =>
    match fault with
    | none => .misfits [] expected
    | some e => .abandoned (.lexical e)
  | t :: rest =>
    match pick t with
    | some a => .fits a rest
    | none => .misfits ts expected

/-- The rule for one token of a kind that carries nothing. -/
def mark (k : Token.Kind) : Rule Unit :=
  next (.token k) fun t => if t.kind = k then some () else none

/-- The rule for an identifier. -/
def identifier : Rule String :=
  next (.token .identifier) fun
    | .identifier n => some n
    | _ => none

/-- The rule that the next token chooses. -/
def onNext (choose : Option Token → Rule α) : Rule α := fun fault ts =>
  choose ts.head? fault ts

/-- The rule `r`, or nothing if it does not fit. -/
def optional (r : Rule α) (default : α) : Rule α := fun fault ts =>
  match r fault ts with
  | .misfits _ _ => .fits default ts
  | outcome => outcome

/-- The rule `r` as often as it fits. A round that reads nothing is the last one. -/
def many (r : Rule α) : Rule (List α) := fun fault ts =>
  match r fault ts with
  | .misfits _ _ => .fits [] ts
  | .abandoned why => .abandoned why
  | .fits a rest =>
    if rest.length < ts.length then
      match many r fault rest with
      | .fits as rest' => .fits (a :: as) rest'
      | outcome => outcome
    else .fits [a] rest
termination_by _ ts => ts.length

/-- The rule `r` once or more, with the mark `k` between two of them. -/
def separated (k : Token.Kind) (r : Rule α) : Rule (List α) := do
  let first ← r
  let more ← many do
    mark k
    r
  return first :: more

/-- The rule `r` between parentheses. -/
def parenthesized (r : Rule α) : Rule α := do
  mark .openParen
  let a ← r
  mark .closeParen
  return a

/-- The rule for the end of the text. -/
def finish : Rule Unit := fun fault ts =>
  match ts, fault with
  | [], none => .fits () []
  | ts, _ => .misfits ts .endOfText

end Rule

end Calx
