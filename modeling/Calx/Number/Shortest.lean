import Calx.Number.Decimal

/-!
# Shortest decimal

`Decimal.ofFloat x` is the decimal number with the fewest digits that rounds to the double `x`, and
of those the one nearest to `x`, a tie to the even digit. For each count of digits only the two
neighbours of `x` on the grid of that many digits have to be tried: if any point of the grid rounds
to `x`, one of them does. Seventeen digits always suffice; the decimal number that equals `x` stands
behind the search all the same. Main statement: `toFloat_of_mem_candidate?`, a number that the
search accepts rounds to `x`.
-/

namespace Calx.Number.Decimal

-- Powers are those of `Nat` itself, also next to a library that has its own.
attribute [local instance (high)] instPowNat

/-- The number of decimal digits of a positive number. -/
def digitCount (n : Nat) : Nat :=
  (Nat.toDigits 10 n).length

/-- The exponent `k` with `10 ^ k ≤ num / den < 10 ^ (k + 1)`, for a positive quotient. -/
def leadingExponent (num den : Nat) : Int :=
  if den ≤ num then (digitCount (num / den) : Int) - 1
  else -(digitCount ((den - 1) / num) : Int)

/-- The quotient `num / den` in steps of `10 ^ step`, as a numerator and a denominator. -/
def onGrid (num den : Nat) (step : Int) : Nat × Nat :=
  if 0 ≤ step then (num, den * 10 ^ step.toNat) else (num * 10 ^ (-step).toNat, den)

/-- Of the two neighbours of `x` (which is `num / den`) on the grid of `10 ^ step`, the one that
rounds to `x`; if both do, the nearer one, and on a tie the even one. -/
def candidate? (x : Float) (num den : Nat) (step : Int) : Option Decimal :=
  let (n, d) := onGrid num den step
  let low := stripZeros ⟨n / d, step⟩
  let high := stripZeros ⟨n / d + 1, step⟩
  if low.toFloat = x then
    if high.toFloat = x then
      let rest := 2 * (n % d)
      if rest < d ∨ rest = d ∧ n / d % 2 = 0 then some low else some high
    else some low
  else if high.toFloat = x then some high
  else none

/-- The decimal number that equals a positive finite double. -/
def exact (x : Float) : Decimal :=
  ⟨units (magnitudeBits x) * 5 ^ unitScale, -(unitScale : Int)⟩

/-- The decimal number with the fewest digits that rounds to the positive finite double `x`. -/
def ofFloat (x : Float) : Decimal :=
  let num := units (magnitudeBits x)
  let den := unitsPerOne
  let k := leadingExponent num den
  let found := (List.range 17).findSome? fun (i : Nat) => candidate? x num den (k - (i : Int))
  found.getD (exact x)

theorem toFloat_of_mem_candidate? {x : Float} {num den : Nat} {step : Int} {d : Decimal}
    (h : candidate? x num den step = some d) : d.toFloat = x := by
  simp only [candidate?] at h
  grind

end Calx.Number.Decimal
