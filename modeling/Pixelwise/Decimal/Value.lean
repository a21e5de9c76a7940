/-
Values of decimals — the rational that a text in positional notation stands
for, and the rationals that lie in an interval.
-/
import Mathlib.Algebra.Order.Field.Rat
import Pixelwise.Decimal.Literal
import Pixelwise.Decimal.Positional

namespace Pixelwise.Decimal

/-- The value of digits with a point among them, if there is one. -/
def textValue (text : List Char) : ℚ :=
  let whole := text.takeWhile Char.isDigit
  let fraction := (splitPoint (text.dropWhile Char.isDigit)).1
  digitsValue (whole ++ fraction) / 10 ^ fraction.length

/-- Whether a rational lies in the interval. -/
def Interval.Contains (i : Interval) (q : ℚ) : Prop :=
  if i.closed then i.lower ≤ q * i.denominator ∧ q * i.denominator ≤ i.upper
  else i.lower < q * i.denominator ∧ q * i.denominator < i.upper

end Pixelwise.Decimal
