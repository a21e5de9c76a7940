/-
Syntax trees — what a program says, with its operators grouped.

The compiler builds no tree.  The trees here are what its code is measured
against: a tree keeps the tokens that carry its names, its numbers and the
places where something can fail, and no punctuation else.

`Expr.code` is the code of a tree in post-order, each instruction with the
line that it is reported on.  `Expr.room` is how many values that code has on
the stack at once, read off the tree and not off the code.
-/
import Pixelwise.Token.Basic
import Pixelwise.Instruction
import Pixelwise.Decimal.Literal

namespace Pixelwise.Syntax

/-- An expression. -/
inductive Expr where
  | number (token : Token)
  | name (token : Token)
  /-- An expression in parentheses, with the one that closes it. -/
  | group (inner : Expr) (closing : Token)
  /-- A call, with the parenthesis that closes its arguments. -/
  | call (callee : Token) (args : List Expr) (closing : Token)
  | unary (op : UnaryOp) (operand : Expr)
  | binary (op : Operator) (left right : Expr)
  | assign (target : Token) (value : Expr)

/-- An expression and its semicolon. -/
structure Statement where
  value : Expr
  semicolon : Token

/-- The number that a number token stands for. -/
def literal (token : Token) : Float :=
  (Decimal.read? token.lexeme).getD 0

/-- The last token of an expression. -/
def Expr.last : Expr → Token
  | number token => token
  | name token => token
  | group _ closing => closing
  | call _ _ closing => closing
  | unary _ operand => operand.last
  | binary _ _ right => right.last
  | assign _ value => value.last

/-- The code of an operator, behind that of its operands.  The three
comparisons that the machine lacks take a second instruction, which negates
the first. -/
def operatorCode : Operator → List Instruction
  | .or => [.binary .or]
  | .and => [.binary .and]
  | .equal => [.binary .equal]
  | .notEqual => [.binary .equal, .unary .not]
  | .greater => [.binary .greater]
  | .greaterEqual => [.binary .less, .unary .not]
  | .less => [.binary .less]
  | .lessEqual => [.binary .greater, .unary .not]
  | .add => [.binary .add]
  | .subtract => [.binary .subtract]
  | .multiply => [.binary .multiply]
  | .divide => [.binary .divide]
  | .remainder => [.binary .remainder]
  | .power => [.binary .power]

/-- The compiler emits just that. -/
@[simp] theorem operatorCode_eq (op : Operator) : operatorCode op = op.code := by
  cases op <;> rfl

mutual

/-- The code of an expression: operands before their operation, a callee
before its arguments, and an assignment as a binding that is read back. -/
def Expr.code : Expr → List (Instruction × Nat)
  | .number token => [(.constant (literal token), token.line)]
  | .name token => [(.get token.lexeme, token.line)]
  | .group inner _ => inner.code
  | .call callee args closing =>
    (.get callee.lexeme, callee.line) :: codeAll args ++ [(.call args.length, closing.line)]
  | .unary op operand => operand.code ++ [(.unary op, operand.last.line)]
  | .binary op left right =>
    left.code ++ right.code ++ (operatorCode op).map fun i => (i, right.last.line)
  | .assign target value =>
    value.code ++
      [(.set target.lexeme, value.last.line), (.get target.lexeme, value.last.line)]

/-- The code of arguments, in order. -/
def codeAll : List Expr → List (Instruction × Nat)
  | [] => []
  | e :: rest => e.code ++ codeAll rest

end

mutual

/-- The room that an expression takes on the stack.  The right operand of an
operator stands beside the value of the left one, and arguments beside the
function that they are for. -/
def Expr.room : Expr → Nat
  | .number _ => 1
  | .name _ => 1
  | .group inner _ => inner.room
  | .call _ args _ => 1 + roomAll args
  | .unary _ operand => operand.room
  | .binary _ left right => max left.room (1 + right.room)
  | .assign _ value => value.room

/-- The room that arguments take, each beside the values of those before it. -/
def roomAll : List Expr → Nat
  | [] => 0
  | e :: rest => max e.room (1 + roomAll rest)

end

mutual

/-- No call in the expression has more than `limit` arguments. -/
def Expr.Narrow (limit : Nat) : Expr → Prop
  | .number _ => True
  | .name _ => True
  | .group inner _ => inner.Narrow limit
  | .call _ args _ => args.length ≤ limit ∧ AllNarrow limit args
  | .unary _ operand => operand.Narrow limit
  | .binary _ left right => left.Narrow limit ∧ right.Narrow limit
  | .assign _ value => value.Narrow limit

/-- No call in the arguments has more than `limit` arguments. -/
def AllNarrow (limit : Nat) : List Expr → Prop
  | [] => True
  | e :: rest => e.Narrow limit ∧ AllNarrow limit rest

end

/-- The code of a statement: its value is dropped on the line of its
semicolon. -/
def Statement.code (s : Statement) : List (Instruction × Nat) :=
  s.value.code ++ [(.pop, s.semicolon.line)]

/-- The code of a program. -/
def code (program : List Statement) : List (Instruction × Nat) :=
  program.flatMap Statement.code

/-- The room of a program: its statements take theirs one after another. -/
def room : List Statement → Nat
  | [] => 0
  | s :: rest => max s.value.room (room rest)

end Pixelwise.Syntax
