/-
Operators — what may be written before or between operands, and the
operations of the machine that carry them out.

The language has three comparisons that the machine lacks: each is the
negation of one that it has.
-/

namespace Pixelwise

/-- Operations on one number.  The same two are written before operands. -/
inductive UnaryOp where
  | negate
  | not
deriving DecidableEq, Repr

/-- The machine's operations on two numbers. -/
inductive BinaryOp where
  | equal
  | greater
  | less
  | add
  | subtract
  | multiply
  | divide
  | power
  | remainder
  | and
  | or
deriving DecidableEq, Repr

/-- Division and remainder, which have a divisor. -/
def BinaryOp.hasDivisor : BinaryOp → Bool
  | divide | remainder => true
  | _ => false

/-- The operators written between two operands. -/
inductive Operator where
  | or
  | and
  | equal
  | notEqual
  | greater
  | greaterEqual
  | less
  | lessEqual
  | add
  | subtract
  | multiply
  | divide
  | remainder
  | power
deriving DecidableEq, Repr

namespace Operator

/-- The operation that an operator stands for, up to negation. -/
def operation : Operator → BinaryOp
  | or => .or
  | and => .and
  | equal | notEqual => .equal
  | greater | lessEqual => .greater
  | less | greaterEqual => .less
  | add => .add
  | subtract => .subtract
  | multiply => .multiply
  | divide => .divide
  | remainder => .remainder
  | power => .power

/-- Operators whose operation is negated afterwards. -/
def negated : Operator → Bool
  | notEqual | greaterEqual | lessEqual => true
  | _ => false

end Operator

end Pixelwise
