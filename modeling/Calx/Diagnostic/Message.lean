import Calx.Diagnostic.Basic
import Calx.Text.Letter

/-!
# Diagnostics from messages

A failed match is told by a message such as `Expected ')', found 'x'  (at char 3), (line:1, col:4)`.
`failureMessage` writes such a message for a place in a text, `expectation?` finds in it what was
expected, and `Diagnostic.ofMessage` makes the diagnostic for it.
-/

namespace Calx.Diagnostic

/-! ## Writing a message -/

/-- How many characters of a word a message shows. -/
def wordWidth : Nat := 16

/-- What stands at a place: the start of a word, which is made of letters and digits, or one
character. -/
def stretch (cs : List Char) (location : Nat) : List Char :=
  match (cs.drop location).takeWhile Text.isLetterOrDigit with
  | [] => (cs.drop location).take 1
  | word => word.take wordWidth

/-- A text with each pair of backslashes made one. -/
def halveBackslashes : List Char → List Char
  | [] => []
  | '\\' :: '\\' :: cs => '\\' :: halveBackslashes cs
  | c :: cs => c :: halveBackslashes cs

/-- What a message tells about what stands at a place of a text; nothing, if the text is empty. -/
def foundClause (cs : List Char) (location : Nat) : List Char :=
  if cs = [] then []
  else
    let shown :=
      if cs.length ≤ location then "end of text".toList
      else halveBackslashes (Text.literalChars (stretch cs location))
    ", found ".toList ++ shown

/-- What a message tells about where a place is. -/
def placeClause (cs : List Char) (location : Nat) : List Char :=
  let place := Text.placeAt cs location
  ("  (at char " ++ toString location ++ "), (line:" ++ toString place.line ++ ", col:" ++
    toString place.column ++ ")").toList

/-- The full message about a place of a text. -/
def failureMessage (cs : List Char) (location : Nat) (message : String) : List Char :=
  message.toList ++ foundClause cs location ++ placeClause cs location

/-! ## Reading a message -/

/-- Whether a text starts with at least one blank character and then `word`. -/
def startsBlankThen (word cs : List Char) : Bool :=
  match cs with
  | [] => false
  | c :: rest => Text.isBlank c && word.isPrefixOf (Text.trimLeft rest)

/-- Whether what is expected ends before this text: where the message tells what was found or where
it was, or at its end. -/
def endsClause (cs : List Char) : Bool :=
  match cs with
  | [] => true
  | ['\n'] => true
  | ',' :: rest => startsBlankThen "found".toList rest
  | cs => startsBlankThen "(at".toList cs

/-- The shortest text without a line feed, of at least one character, that a clause ends behind. -/
def clause? : List Char → Option (List Char)
  | [] => none
  | c :: cs =>
    if c = '\n' then none
    else if endsClause cs then some [c]
    else (clause? cs).map (c :: ·)

/-- The clause behind blank characters, of which at least one and as many as possible are skipped,
as long as a clause is left. -/
def clauseAfterBlank? : List Char → Option (List Char)
  | [] => none
  | c :: cs =>
    if Text.isBlank c then
      match clauseAfterBlank? cs with
      | some e => some e
      | none => clause? cs
    else none

/-- The word that announces what is expected. -/
def announcement : List Char := "Expected".toList

/-- What a message tells to be expected, the first time that it does. -/
def expectation? : List Char → Option (List Char)
  | [] => none
  | c :: cs =>
    let here :=
      if announcement.isPrefixOf (c :: cs) then
        clauseAfterBlank? ((c :: cs).drop announcement.length)
      else none
    match here with
    | some e => some e
    | none => expectation? cs

/-- The diagnostic for a message about a place in a text. -/
def ofMessage (cs : List Char) (location : Nat) (message : String) : Diagnostic :=
  let expected := match expectation? (failureMessage cs location message) with
    | some e => String.ofList e
    | none => "valid syntax"
  build cs location expected (listsClosing [expected])

end Calx.Diagnostic
