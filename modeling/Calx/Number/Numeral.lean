import Calx.Number.Shortest

/-!
# Numerals

A numeral is the written form of a nonnegative number: digits, perhaps a point and more digits,
perhaps an exponent. `Numeral.scan?` reads the longest numeral at the start of a text,
`Numeral.toFloat` is the double it denotes, and `Numeral.ofDecimal` lays out a decimal number.

On top of them stand the two directions for doubles of either sign: `write` gives the shortest text
that reads back, `read?` reads a text.
-/

namespace Calx.Number

/-- The exponent of a numeral: its sign and its digits. -/
structure ExponentPart where
  /-- Whether the exponent is negative. -/
  negative : Bool
  /-- The digits of the exponent. -/
  digits : List Char
deriving DecidableEq

/-- A written nonnegative number. -/
structure Numeral where
  /-- The digits before the point. -/
  whole : List Char
  /-- The digits after the point; with none the point is left out too. -/
  fraction : List Char
  /-- The exponent, if one is written. -/
  exponent : Option ExponentPart
deriving DecidableEq

/-- The number that a list of decimal digits denotes. -/
def digitsValue (cs : List Char) : Nat :=
  cs.foldl (fun n c => 10 * n + (c.toNat - '0'.toNat)) 0

/-- The value of an exponent. -/
def ExponentPart.value (e : ExponentPart) : Int :=
  if e.negative then -(digitsValue e.digits : Int) else digitsValue e.digits

/-- An exponent as it is written: its mark, its sign and its digits. -/
def ExponentPart.text (e : ExponentPart) : List Char :=
  'e' :: (if e.negative then '-' else '+') :: e.digits

namespace Numeral

/-- The decimal number that a numeral denotes. -/
def toDecimal (n : Numeral) : Decimal :=
  ⟨digitsValue (n.whole ++ n.fraction),
    (n.exponent.elim 0 ExponentPart.value) - (n.fraction.length : Int)⟩

/-- The double that a numeral denotes: the nearest one, a tie to the even one. -/
def toFloat (n : Numeral) : Float :=
  n.toDecimal.toFloat

/-- A numeral as it is written. -/
def text (n : Numeral) : List Char :=
  n.whole ++ (if n.fraction = [] then [] else '.' :: n.fraction) ++
    n.exponent.elim [] ExponentPart.text

/-! ## Scanning -/

/-- The run of digits at the start of a text. -/
def digitRun (cs : List Char) : List Char :=
  cs.takeWhile Char.isDigit

/-- The whole part at the start of a text: a zero alone, or digits that do not start with zero. -/
def wholeRun : List Char → List Char
  | '0' :: _ => ['0']
  | cs => digitRun cs

/-- The digits after a point at the start of a text. -/
def fractionRun : List Char → List Char
  | '.' :: cs => digitRun cs
  | _ => []

/-- The exponent at the start of a text, and how many characters it takes. -/
def exponentRun : List Char → Option (ExponentPart × Nat)
  | [] => none
  | mark :: cs =>
    if mark = 'e' ∨ mark = 'E' then
      let (negative, sign) : Bool × Nat := match cs with
        | '+' :: _ => (false, 1)
        | '-' :: _ => (true, 1)
        | _ => (false, 0)
      let digits := digitRun (cs.drop sign)
      if digits = [] then none else some (⟨negative, digits⟩, 1 + sign + digits.length)
    else none

/-- The longest numeral at the start of a text, and how many characters it takes. -/
def scan? (cs : List Char) : Option (Numeral × Nat) :=
  let whole := wholeRun cs
  if whole = [] then none
  else
    let fraction := fractionRun (cs.drop whole.length)
    let width := whole.length + (if fraction = [] then 0 else 1 + fraction.length)
    match exponentRun (cs.drop width) with
    | none => some (⟨whole, fraction, none⟩, width)
    | some (exponent, length) => some (⟨whole, fraction, some exponent⟩, width + length)

/-! ## Layout -/

/-- The least decimal exponent of a number that is written without an exponent. -/
def positionalFrom : Int := -4

/-- The least decimal exponent of the numbers from which on an exponent is written again. -/
def positionalBelow : Int := 16

/-- The layout of the number with the digits `ds`, the first of which stands for `10 ^ exponent`:
positional with at least one digit on each side of the point, or with one digit before the point
and an exponent of at least two digits. -/
def layout (ds : List Char) (exponent : Int) : Numeral :=
  if positionalFrom ≤ exponent ∧ exponent < positionalBelow then
    if exponent < 0 then
      ⟨['0'], List.replicate ((-exponent).toNat - 1) '0' ++ ds, none⟩
    else
      let split := exponent.toNat + 1
      let after := ds.drop split
      ⟨ds.take split ++ List.replicate (split - ds.length) '0',
        if after = [] then ['0'] else after, none⟩
  else
    let es := Nat.toDigits 10 exponent.natAbs
    ⟨ds.take 1, ds.drop 1,
      some ⟨exponent < 0, List.replicate (2 - es.length) '0' ++ es⟩⟩

/-- The written form of a decimal number. -/
def ofDecimal (d : Decimal) : Numeral :=
  let ds := Nat.toDigits 10 d.significand
  layout ds (d.exponent + (ds.length : Int) - 1)

/-- The shortest numeral that denotes the nonnegative finite double `x`. -/
def ofFloat (x : Float) : Numeral :=
  ofDecimal (if magnitudeBits x = 0 then ⟨0, 0⟩ else Decimal.ofFloat x)

end Numeral

/-! ## Doubles of either sign -/

/-- The shortest text that reads back as the double `x`. -/
def write (x : Float) : String :=
  if x.isNaN then "nan"
  else
    let sign := if isNegative x then "-" else ""
    if x.isInf then sign ++ "inf"
    else sign ++ String.ofList (Numeral.ofFloat x.abs).text

/-- A text of digits without the zeros that stand before another digit. -/
def dropLeadingZeros : List Char → List Char
  | '0' :: c :: cs => if c.isDigit then dropLeadingZeros (c :: cs) else '0' :: c :: cs
  | cs => cs

/-- The magnitude that a text without a sign denotes. -/
def readMagnitude? (cs : List Char) : Option Float :=
  if cs = "inf".toList then some (Float.ofBits (UInt64.ofNat infinityBits))
  else
    let digits := dropLeadingZeros cs
    match Numeral.scan? digits with
    | some (n, width) => if width = digits.length then some n.toFloat else none
    | none => none

/-- The double that a whole text denotes: `nan`, or `inf` or a numeral, these two perhaps after a
sign. Zeros may stand before the digits of a numeral here. -/
def read? (s : String) : Option Float :=
  match s.toList with
  | '-' :: cs => (readMagnitude? cs).map (-·)
  | '+' :: cs => readMagnitude? cs
  | cs => if cs = "nan".toList then some (0.0 / 0.0) else readMagnitude? cs

end Calx.Number
