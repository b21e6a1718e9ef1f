import Calx.Number.Numeral
import Calx.Text.Literal

/-!
# Tokens

A token is a punctuation mark, a keyword, a number, a string or an identifier. `Token.Kind` forgets
what a token carries; a kind has a type name for listings and a display name for diagnostics.
-/

namespace Calx

/-- A token of the language. -/
inductive Token where
  /-- The mark `;`. -/
  | semicolon
  /-- The mark `=`. -/
  | equals
  /-- The mark `+`. -/
  | plus
  /-- The mark `-`. -/
  | minus
  /-- The mark `*`. -/
  | asterisk
  /-- The mark `/`. -/
  | slash
  /-- The mark `(`. -/
  | openParen
  /-- The mark `)`. -/
  | closeParen
  /-- The mark `,`. -/
  | comma
  /-- The keyword `let`. -/
  | letWord
  /-- The keyword `in`. -/
  | inWord
  /-- The keyword `def`. -/
  | defWord
  /-- A number, by the double it denotes. -/
  | number (value : Float)
  /-- A string, by the text it denotes. -/
  | string (text : String)
  /-- A word that is no keyword. -/
  | identifier (name : String)
deriving DecidableEq

namespace Token

/-- What a token is, without what it carries. -/
inductive Kind where
  | semicolon
  | equals
  | plus
  | minus
  | asterisk
  | slash
  | openParen
  | closeParen
  | comma
  | letWord
  | inWord
  | defWord
  | number
  | string
  | identifier
deriving DecidableEq

/-- The type name of a kind, as listings show it. -/
def Kind.typeName : Kind → String
  | semicolon => "SEMICOLON"
  | equals => "EQUAL"
  | plus => "PLUS"
  | minus => "MINUS"
  | asterisk => "ASTERISK"
  | slash => "SLASH"
  | openParen => "LPAREN"
  | closeParen => "RPAREN"
  | comma => "COMMA"
  | letWord => "LET"
  | inWord => "IN"
  | defWord => "DEF"
  | number => "NUMBER"
  | string => "STRING"
  | identifier => "IDENTIFIER"

/-- The display name of a kind, as diagnostics show it: the token between quotes, or a noun. -/
def Kind.displayName : Kind → String
  | semicolon => "';'"
  | equals => "'='"
  | plus => "'+'"
  | minus => "'-'"
  | asterisk => "'*'"
  | slash => "'/'"
  | openParen => "'('"
  | closeParen => "')'"
  | comma => "','"
  | letWord => "'let'"
  | inWord => "'in'"
  | defWord => "'def'"
  | number => "number"
  | string => "string"
  | identifier => "identifier"

/-- The kind of a token. -/
def kind : Token → Kind
  | semicolon => .semicolon
  | equals => .equals
  | plus => .plus
  | minus => .minus
  | asterisk => .asterisk
  | slash => .slash
  | openParen => .openParen
  | closeParen => .closeParen
  | comma => .comma
  | letWord => .letWord
  | inWord => .inWord
  | defWord => .defWord
  | number _ => .number
  | string _ => .string
  | identifier _ => .identifier

/-- The punctuation mark that a character is. -/
def ofPunctuation? : Char → Option Token
  | ';' => some semicolon
  | '=' => some equals
  | '+' => some plus
  | '-' => some minus
  | '*' => some asterisk
  | '/' => some slash
  | '(' => some openParen
  | ')' => some closeParen
  | ',' => some comma
  | _ => none

/-- The keywords, in alphabetical order. -/
def keywords : List (String × Token) :=
  [("def", defWord), ("in", inWord), ("let", letWord)]

/-- The token that a word is: a keyword, or an identifier. -/
def ofWord (word : String) : Token :=
  (keywords.lookup word).getD (identifier word)

/-- A token as listings show it: its type name, and what it carries between parentheses. -/
def display (t : Token) : String :=
  match t with
  | number x => t.kind.typeName ++ "(" ++ Number.write x ++ ")"
  | string s => t.kind.typeName ++ "(" ++ Text.literal s ++ ")"
  | identifier n => t.kind.typeName ++ "(" ++ Text.literal n ++ ")"
  | t => t.kind.typeName

end Token

end Calx
