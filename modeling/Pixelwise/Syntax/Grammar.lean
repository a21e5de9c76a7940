/-
The grammar — which tokens an expression and a program are made of.

There is one level for each way to bind.  What a level derives is what the
next tighter one derives, or two operands that an operator of the level
joins: the left one of the level itself, the right one of the next, so that
all operators group to the left.  An assignment is an expression of the
loosest level, and its value goes on to the right.

`Derives` relates tokens to the tree that they make up, and
`DerivesProgram` the tokens of a source to its statements.
-/
import Pixelwise.Syntax.Mention
import Pixelwise.Precedence

namespace Pixelwise.Syntax

/-- The signs that join two operands at a level, and what they stand for. -/
def signs : Precedence → List (Token.Kind × Operator)
  | .or => [(.pipe, .or)]
  | .and => [(.ampersand, .and)]
  | .equality => [(.equalEqual, .equal), (.bangEqual, .notEqual)]
  | .comparison =>
    [(.less, .less), (.lessEqual, .lessEqual), (.greater, .greater),
      (.greaterEqual, .greaterEqual)]
  | .term => [(.plus, .add), (.minus, .subtract)]
  | .factor => [(.star, .multiply), (.slash, .divide), (.percent, .remainder)]
  | .power => [(.caret, .power)]
  | _ => []

/-- The signs that stand before one operand, and what they stand for. -/
def unarySigns : List (Token.Kind × UnaryOp) :=
  [(.minus, .negate), (.bang, .not)]

mutual

/-- `Derives level tokens e`: at a level of binding, the tokens make up the
expression `e`. -/
inductive Derives : Precedence → List Token → Expr → Prop
  | number {t : Token} : t.kind = .number → Derives .primary [t] (.number t)
  | name {t : Token} : t.kind = .identifier → Derives .primary [t] (.name t)
  | group {opening closing : Token} {ts : List Token} {inner : Expr} :
      opening.kind = .leftParen → Derives .assignment ts inner →
      closing.kind = .rightParen →
      Derives .primary (opening :: ts ++ [closing]) (.group inner closing)
  | call {callee opening closing : Token} {ts : List Token} {args : List Expr} :
      callee.kind = .identifier → opening.kind = .leftParen → DerivesArgs ts args →
      closing.kind = .rightParen →
      Derives .primary (callee :: opening :: ts ++ [closing]) (.call callee args closing)
  | unary {sign : Token} {op : UnaryOp} {ts : List Token} {operand : Expr} :
      (sign.kind, op) ∈ unarySigns → Derives .unary ts operand →
      Derives .unary (sign :: ts) (.unary op operand)
  | binary {level : Precedence} {sign : Token} {op : Operator} {ls rs : List Token}
      {left right : Expr} :
      (sign.kind, op) ∈ signs level → Derives level ls left → Derives level.next rs right →
      Derives level (ls ++ sign :: rs) (.binary op left right)
  | tighter {level : Precedence} {ts : List Token} {e : Expr} :
      Derives level.next ts e → Derives level ts e
  | assign {target sign : Token} {ts : List Token} {value : Expr} :
      target.kind = .identifier → sign.kind = .equal → Derives .assignment ts value →
      Derives .assignment (target :: sign :: ts) (.assign target value)

/-- The tokens between the parentheses of a call: no argument, or arguments
with commas between them. -/
inductive DerivesArgs : List Token → List Expr → Prop
  | none : DerivesArgs [] []
  | one {ts : List Token} {e : Expr} : Derives .assignment ts e → DerivesArgs ts [e]
  | more {ts rest : List Token} {comma : Token} {e f : Expr} {es : List Expr} :
      Derives .assignment ts e → comma.kind = .comma → DerivesArgs rest (f :: es) →
      DerivesArgs (ts ++ comma :: rest) (e :: f :: es)

end

/-- A program is statements, each an expression and a semicolon. -/
inductive DerivesProgram : List Token → List Statement → Prop
  | nil : DerivesProgram [] []
  | cons {ts rest : List Token} {semicolon : Token} {e : Expr} {program : List Statement} :
      Derives .assignment ts e → semicolon.kind = .semicolon → DerivesProgram rest program →
      DerivesProgram (ts ++ semicolon :: rest) (⟨e, semicolon⟩ :: program)

end Pixelwise.Syntax
