/-
Writing numbers — the shortest decimal, in positional notation.

No exponent is ever written, whole numbers have no point, and negative zero
keeps its sign.
-/
import Pixelwise.Decimal.Shortest

namespace Pixelwise.Decimal

/-- At least `width` characters: zeros, and then the digits. -/
def padZeros (width : Nat) (digits : List Char) : List Char :=
  List.replicate (width - digits.length) '0' ++ digits

/-- The fraction of a number, without the zeros at its end. -/
def trimFraction (digits : List Char) : List Char :=
  (digits.reverse.dropWhile (· = '0')).reverse

/-- Whole units of ten to the `exponent` in positional notation. -/
def positional (units : Nat) (exponent : Int) : List Char :=
  if 0 ≤ exponent then Nat.toDigits 10 (units * tenTo exponent.toNat)
  else
    let places := (-exponent).toNat
    let whole := Nat.toDigits 10 (units / tenTo places)
    let fraction := trimFraction (padZeros places (Nat.toDigits 10 (units % tenTo places)))
    if fraction = [] then whole else whole ++ '.' :: fraction

/-- The text of a number: the fewest digits that read back as it. -/
def write (x : Float) : String :=
  match Binary64.ofFloat? x with
  | some b =>
    let digits := if b.mantissa = 0 then ['0'] else
      positional (shortest b).1 (shortest b).2
    String.ofList (if b.negative then '-' :: digits else digits)
  | none => if x.isNaN then "NaN" else if x < 0 then "-inf" else "inf"

end Pixelwise.Decimal
