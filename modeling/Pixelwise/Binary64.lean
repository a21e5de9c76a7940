/-
Numbers by their bits — the finite numbers as whole mantissas and powers of
two, so that they can be computed with exactly, and the two that are not
finite.
-/

namespace Pixelwise

/-- The number above all others. -/
def infinity : Float := Float.ofBits 0x7FF0000000000000

/-- The number that is none. -/
def notANumber : Float := Float.ofBits 0x7FF8000000000000

/-- The number plus or minus `mantissa` times two to the `exponent`. -/
structure Binary64 where
  negative : Bool
  mantissa : Nat
  exponent : Int
deriving DecidableEq, Repr

namespace Binary64

/-- The least exponent, which is also that of the numbers near zero. -/
def minExponent : Int := -1074

/-- The bit above the stored bits of a mantissa, which numbers that are not
near zero have without storing it. -/
def hiddenBit : Nat := 1 <<< 52

/-- The bit that negative numbers have. -/
def signBit : Nat := 1 <<< 63

/-- The mantissa and exponent of a finite number; a number that is infinite
or none has neither. -/
def ofFloat? (x : Float) : Option Binary64 :=
  let bits : Nat := x.toBits.toNat
  let biased : Nat := bits / hiddenBit % 2048
  let stored : Nat := bits % hiddenBit
  if biased = 2047 then none
  else if biased = 0 then some ⟨signBit ≤ bits, stored, minExponent⟩
  else some ⟨signBit ≤ bits, stored + hiddenBit, (biased : Int) - 1075⟩

/-- The number of a mantissa below two to the 53 and an exponent in range.

The mantissa is moved up as far as it goes, so that numbers have the one
form that the bits allow. -/
def toFloat (b : Binary64) : Float :=
  let shift := min (52 - b.mantissa.log2) (b.exponent - minExponent).toNat
  let mantissa := b.mantissa <<< shift
  let magnitude :=
    if mantissa < hiddenBit then mantissa
    else (b.exponent - shift + 1075).toNat * hiddenBit + (mantissa - hiddenBit)
  Float.ofBits (UInt64.ofNat (if b.negative then signBit + magnitude else magnitude))

end Binary64

end Pixelwise
