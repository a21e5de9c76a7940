/-
Values of numbers — the rational that a finite number is, and the one form
of a mantissa and an exponent that the bits allow for it.
-/
import Mathlib.Algebra.Order.Field.Rat
import Pixelwise.Binary64

namespace Pixelwise

namespace Binary64

/-- The form that the bits allow: a mantissa of 53 bits, of which the highest
is missing in numbers near zero only. -/
structure Canonical (b : Binary64) : Prop where
  mantissa_lt : b.mantissa < 2 * hiddenBit
  exponent_ge : minExponent ≤ b.exponent
  exponent_le : b.exponent ≤ 971
  normal : hiddenBit ≤ b.mantissa ∨ b.exponent = minExponent

/-- The number without its sign. -/
def magnitude (b : Binary64) : ℚ :=
  b.mantissa * 2 ^ b.exponent

/-- The number as a rational. -/
def value (b : Binary64) : ℚ :=
  if b.negative then -b.magnitude else b.magnitude

end Binary64

/-- The rational that a finite number is; the numbers that are not finite
count as zero. -/
def exact (x : Float) : ℚ :=
  (Binary64.ofFloat? x).elim 0 Binary64.value

end Pixelwise
