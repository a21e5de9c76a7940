/-
The grammar of decimals — digits with at most one point, which may stand
before, among or behind them.
-/
import Mathlib.Computability.Language
import Pixelwise.Token.Lexicon

open Computability

namespace Pixelwise.Decimal

open Token

/-- A decimal without a sign and without an exponent. -/
def plain : Language Char :=
  digits + digits * {['.']} * digit∗ + digit∗ * {['.']} * digits

end Pixelwise.Decimal
