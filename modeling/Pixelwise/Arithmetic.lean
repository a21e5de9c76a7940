/-
Arithmetic on numbers beyond the four operations.

Remainders are exact: they are taken of whole multiples of one power of two
and the result can always be represented.
-/
import Pixelwise.Binary64

namespace Pixelwise.Arithmetic

/-- The remainder of a division whose quotient is rounded toward zero; it
has the sign of the dividend, and there is none for a zero divisor or an
infinite dividend. -/
def remainder (a b : Float) : Float :=
  if b.isInf ∧ a.isFinite then a
  else
    match Binary64.ofFloat? a, Binary64.ofFloat? b with
    | some x, some y =>
      if y.mantissa = 0 then notANumber
      else
        let exponent := min x.exponent y.exponent
        let dividend := x.mantissa <<< (x.exponent - exponent).toNat
        let divisor := y.mantissa <<< (y.exponent - exponent).toNat
        (⟨x.negative, dividend % divisor, exponent⟩ : Binary64).toFloat
    | _, _ => notANumber

/-- The remainder brought into the range from zero to a positive divisor by
adding the divisor, rounded, to a negative one. -/
def wrap (a divisor : Float) : Float :=
  let r := remainder a divisor
  if r < 0 then r + divisor else r

/-- The nearest number between two bounds; negative zero counts as zero and
is kept, and so is the number that is none. -/
def clamp (x low high : Float) : Float :=
  if x < low then low else if high < x then high else x

/-- The lesser of two numbers, of which one may be none. -/
def least (a b : Float) : Float :=
  if a.isNaN then b else if b.isNaN then a else if b < a then b else a

/-- The greater of two numbers, of which one may be none. -/
def greatest (a b : Float) : Float :=
  if a.isNaN then b else if b.isNaN then a else if a < b then b else a

/-- Numbers of at least one count as true. -/
def isTrue (x : Float) : Bool :=
  x ≥ 1

/-- Truth as a number. -/
def ofBool (b : Bool) : Float :=
  if b then 1 else 0

end Pixelwise.Arithmetic
