import Calx.Text.Printable

/-!
# Quoted texts

The written form of a text inside the display of a token or a value: `literal` puts it between
quotes and escapes what would not stand for itself. It uses the single quote, and the double quote
only for a text that holds a single quote and no double quote.
-/

namespace Calx.Text

/-- A number in hexadecimal, in lower case, with zeros in front up to `width` digits. -/
def hexDigits (width n : Nat) : List Char :=
  let digits := Nat.toDigits 16 n
  List.replicate (width - digits.length) '0' ++ digits

/-- The quote that `literal` puts around a text. -/
def quoteMark (cs : List Char) : Char :=
  if '\'' ∈ cs ∧ '"' ∉ cs then '"' else '\''

/-- One character inside a text quoted by `mark`. -/
def literalChar (mark c : Char) : List Char :=
  if c = mark || c = '\\' then ['\\', c]
  else if c = '\n' then ['\\', 'n']
  else if c = '\r' then ['\\', 'r']
  else if c = '\t' then ['\\', 't']
  else if isPrintable c then [c]
  else if c.toNat < 0x100 then '\\' :: 'x' :: hexDigits 2 c.toNat
  else if c.toNat < 0x10000 then '\\' :: 'u' :: hexDigits 4 c.toNat
  else '\\' :: 'U' :: hexDigits 8 c.toNat

/-- The quoted form of a list of characters. -/
def literalChars (cs : List Char) : List Char :=
  let mark := quoteMark cs
  mark :: cs.flatMap (literalChar mark) ++ [mark]

/-- The quoted form of a text. -/
def literal (s : String) : String :=
  String.ofList (literalChars s.toList)

/-- A tuple of written items, which keeps a comma after a single one. -/
def tuple (items : List String) : String :=
  match items with
  | [item] => "(" ++ item ++ ",)"
  | items => "(" ++ ", ".intercalate items ++ ")"

/-- A list of quoted texts between brackets. -/
def literalList (items : List String) : String :=
  "[" ++ ", ".intercalate (items.map literal) ++ "]"

end Calx.Text
