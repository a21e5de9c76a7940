/-
Precedence — how tightly the operators bind, and what each kind of token
may do in an expression.

The levels are ordered by `Precedence.rank`.  A right operand is read one
level tighter than its operator (`Precedence.next`), so every operator
groups to the left.
-/
import Pixelwise.Token.Basic
import Pixelwise.Operator

namespace Pixelwise

/-- Levels of binding, loosest first. -/
inductive Precedence where
  | none
  | assignment
  | or
  | and
  | equality
  | comparison
  | term
  | factor
  | power
  | unary
  | call
  | primary
deriving DecidableEq, Repr

namespace Precedence

/-- The place of a level in the order. -/
def rank : Precedence → Nat
  | none => 0
  | assignment => 1
  | or => 2
  | and => 3
  | equality => 4
  | comparison => 5
  | term => 6
  | factor => 7
  | power => 8
  | unary => 9
  | call => 10
  | primary => 11

/-- Looser levels come first. -/
instance : LE Precedence := ⟨fun a b => a.rank ≤ b.rank⟩

instance : DecidableRel (α := Precedence) (· ≤ ·) :=
  fun a b => inferInstanceAs (Decidable (a.rank ≤ b.rank))

/-- The next tighter level; the tightest is followed by itself. -/
def next : Precedence → Precedence
  | none => assignment
  | assignment => or
  | or => and
  | and => equality
  | equality => comparison
  | comparison => term
  | term => factor
  | factor => power
  | power => unary
  | unary => call
  | call | primary => primary

end Precedence

/-- The level of an operator. -/
def Operator.precedence : Operator → Precedence
  | or => .or
  | and => .and
  | equal | notEqual => .equality
  | greater | greaterEqual | less | lessEqual => .comparison
  | add | subtract => .term
  | multiply | divide | remainder => .factor
  | power => .power

/-- The ways in which an expression can open. -/
inductive Opening where
  | grouping
  | unary (op : UnaryOp)
  | number
  | variable
deriving DecidableEq, Repr

namespace Token.Kind

/-- How a token opens an expression, if it can. -/
def opening : Kind → Option Opening
  | leftParen => some .grouping
  | minus => some (.unary .negate)
  | bang => some (.unary .not)
  | number => some .number
  | identifier => some .variable
  | _ => none

/-- The operator that a token is after an operand, if it is one. -/
def operator : Kind → Option Operator
  | pipe => some .or
  | ampersand => some .and
  | equalEqual => some .equal
  | bangEqual => some .notEqual
  | greater => some .greater
  | greaterEqual => some .greaterEqual
  | less => some .less
  | lessEqual => some .lessEqual
  | plus => some .add
  | minus => some .subtract
  | star => some .multiply
  | slash => some .divide
  | percent => some .remainder
  | caret => some .power
  | _ => none

/-- The level at which a token joins operands; none for all but operators. -/
def precedence (kind : Kind) : Precedence :=
  (kind.operator.map Operator.precedence).getD .none

end Token.Kind

end Pixelwise
