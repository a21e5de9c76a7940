/-
Reading decimals — the number nearest to a decimal text.

A decimal is digits with at most one point among them, at least one digit,
and perhaps an exponent; infinity and the number that is none have names.
Of the numbers that can be represented the nearest is taken, the even one
of two that are equally near.
-/
import Pixelwise.Binary64

namespace Pixelwise.Decimal

/-- The value of a run of digits, the most significant first. -/
def digitsValue (digits : List Char) : Nat :=
  digits.foldl (fun value d => 10 * value + (d.toNat - '0'.toNat)) 0

/-- An integer with an optional sign; nothing may follow its digits. -/
def readInt? (text : List Char) : Option Int :=
  match text with
  | '-' :: cs => (unsigned cs).map fun n => -n
  | '+' :: cs => unsigned cs
  | cs => unsigned cs
where
  unsigned (cs : List Char) : Option Int :=
    if cs ≠ [] ∧ cs.all Char.isDigit then some (digitsValue cs) else none

/-- The exponent that may end a decimal; none means zero. -/
def readExponent? : List Char → Option Int
  | [] => some 0
  | c :: cs => if c = 'e' ∨ c = 'E' then readInt? cs else none

/-- The number nearest to the value of `digits` times ten to the `exponent`.

An exponent past the bounds used here makes the result infinite or zero,
and so does the bound itself; hence no large power is ever formed. -/
def scale (digits : List Char) (exponent : Int) : Float :=
  if 0 ≤ exponent then Float.ofScientific (digitsValue digits) false (min exponent.toNat 400)
  else Float.ofScientific (digitsValue digits) true (min (-exponent).toNat (digits.length + 400))

/-- The digits after a point, and what follows them; a text that opens with
no point has no such digits. -/
def splitPoint : List Char → List Char × List Char
  | '.' :: cs => (cs.takeWhile Char.isDigit, cs.dropWhile Char.isDigit)
  | cs => ([], cs)

/-- Digits, at most one point, and perhaps an exponent. -/
def readPlain? (text : List Char) : Option Float :=
  let whole := text.takeWhile Char.isDigit
  let tail := splitPoint (text.dropWhile Char.isDigit)
  if whole ++ tail.1 = [] then none
  else (readExponent? tail.2).map fun e => scale (whole ++ tail.1) (e - tail.1.length)

/-- A decimal without a sign, or one of the names, in letters of either
case. -/
def readUnsigned? (text : List Char) : Option Float :=
  let word := String.ofList (text.map Char.toLower)
  if word = "inf" ∨ word = "infinity" then some infinity
  else if word = "nan" then some notANumber
  else readPlain? text

/-- The number that a text stands for, if it is a decimal. -/
def read? (text : String) : Option Float :=
  match text.toList with
  | '-' :: cs => (readUnsigned? cs).map fun x => -x
  | '+' :: cs => readUnsigned? cs
  | cs => readUnsigned? cs

end Pixelwise.Decimal
