/-
Shortest decimals — the fewest digits that read back as a number.

A decimal reads back as a number when it lies in the interval of values
that are rounded to that number; the ends belong to it when the mantissa is
even.  On the grid of decimals with one digit, then two, and so on, the two
neighbours of the number are tried; the first grid with a hit wins, and of
two hits the nearer one, or the upper one when they are equally near.
-/
import Pixelwise.Binary64

namespace Pixelwise.Decimal

/-- A power of ten. -/
def tenTo (n : Nat) : Nat := Nat.pow 10 n

/-- A positive value over a denominator, between the ends of the interval
of values that are rounded to it. -/
structure Interval where
  lower : Nat
  value : Nat
  upper : Nat
  denominator : Nat
  /-- Whether the ends belong to the interval. -/
  closed : Bool

/-- The interval of a positive number.  Below a power of two the numbers
are twice as dense, so there the lower end is half as far away. -/
def Interval.of (b : Binary64) : Interval :=
  let below :=
    if b.mantissa = Binary64.hiddenBit ∧ b.exponent ≠ Binary64.minExponent then 1 else 2
  let up := (b.exponent - 2).toNat
  { lower := (4 * b.mantissa - below) <<< up
    value := (4 * b.mantissa) <<< up
    upper := (4 * b.mantissa + 2) <<< up
    denominator := 1 <<< (2 - b.exponent).toNat
    closed := b.mantissa % 2 = 0 }

/-- The interval in units of ten to the `exponent`. -/
def Interval.inUnits (i : Interval) (exponent : Int) : Interval :=
  let up := tenTo (-exponent).toNat
  { lower := i.lower * up
    value := i.value * up
    upper := i.upper * up
    denominator := i.denominator * tenTo exponent.toNat
    closed := i.closed }

/-- Whether a whole number of units lies in the interval. -/
def Interval.holds (i : Interval) (units : Nat) : Bool :=
  let n := units * i.denominator
  if i.closed then i.lower ≤ n && n ≤ i.upper else i.lower < n && n < i.upper

/-- The whole number of units next to the value that lies in the interval,
if one does. -/
def Interval.nearest? (i : Interval) : Option Nat :=
  let down := i.value / i.denominator
  match i.holds down, i.holds (down + 1) with
  | true, true =>
    if 2 * (i.value % i.denominator) < i.denominator then some down else some (down + 1)
  | true, false => some down
  | false, true => some (down + 1)
  | false, false => none

/-- How many decimal digits a whole number has. -/
def digitCount (n : Nat) : Nat :=
  (Nat.toDigits 10 n).length

/-- The exponent of the first digit of the value.  Below one it is that of
the least power of ten that brings the value to one or more. -/
def Interval.magnitude (i : Interval) : Int :=
  if i.denominator ≤ i.value then (digitCount (i.value / i.denominator) : Int) - 1
  else -(digitCount ((i.denominator - 1) / i.value) : Int)

/-- The digits of the value at the first of the grids that hits the
interval, and the exponent of their unit, which is ten times finer on each
grid than on the one before. -/
def Interval.search (i : Interval) (exponent : Int) : (grids : Nat) → Nat × Int
  | 0 => (0, 0)
  | grids + 1 =>
    match (i.inUnits exponent).nearest? with
    | some units => (units, exponent)
    | none => i.search (exponent - 1) grids

/-- A whole number and a power of ten: the shortest decimal that reads back
as a positive number.  Seventeen digits are always enough. -/
def shortest (b : Binary64) : Nat × Int :=
  (Interval.of b).search (Interval.of b).magnitude 17

end Pixelwise.Decimal
