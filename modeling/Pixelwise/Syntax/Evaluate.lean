/-
Evaluation of trees — what a program means, without a machine.

Operands, arguments and statements are evaluated from the left, all of them
and each once; the first failure ends the evaluation.  A name stands for
what its place in the tree says: a callee for a function of the library, any
other name for the input that the environment has under it, and else for the
value that was assigned to it last.

There is no stack, and code plays no part.
-/
import Pixelwise.Syntax.Tree
import Pixelwise.Machine.Execute

namespace Pixelwise

open Arithmetic

/-- A quotient or a remainder, unless its divisor is zero. -/
def divided (division : DivisionPolicy) (divisor result : Float) : Except Fault Float :=
  if divisor == 0 then
    match division with
    | .zero => .ok 0
    | .fail => .error .divisionByZero
  else .ok result

/-- What an operator makes of its operands. -/
def Operator.value (op : Operator) (division : DivisionPolicy) (a b : Float) :
    Except Fault Float :=
  match op with
  | or => .ok (ofBool (isTrue a || isTrue b))
  | and => .ok (ofBool (isTrue a && isTrue b))
  | equal => .ok (ofBool (a == b))
  | notEqual => .ok (ofBool !(a == b))
  | greater => .ok (ofBool (a > b))
  | greaterEqual => .ok (ofBool !(a < b))
  | less => .ok (ofBool (a < b))
  | lessEqual => .ok (ofBool !(a > b))
  | add => .ok (a + b)
  | subtract => .ok (a - b)
  | multiply => .ok (a * b)
  | divide => divided division b (a / b)
  | remainder => divided division b (Arithmetic.remainder a b)
  | power => .ok (a ^ b)

namespace Syntax

variable {σ : Type}

/-- What an evaluation works on. -/
structure Store (σ : Type) where
  bindings : Bindings
  generator : Generator
  host : σ

/-- The value of a name that is not called. -/
def readName (env : Environment σ) (index : Nat) (token : Token) (m : Store σ) :
    Except Failure Float × Store σ :=
  match env.get? token.lexeme with
  | some input =>
    match input.valueAt? index m.host with
    | some (x, host) => (.ok x, { m with host })
    | none =>
      (.error ⟨.indexOutOfBounds ⟨token.lexeme, index, input.length⟩, token.line⟩, m)
  | none =>
    match m.bindings.get? token.lexeme with
    | some x => (.ok x, m)
    | none => (.error ⟨.undefinedName token.lexeme, token.line⟩, m)

/-- The value of a function of the library. -/
def callName (callee closing : Token) (xs : List Float) (m : Store σ) :
    Except Failure Float × Store σ :=
  match Builtin.ofName? callee.lexeme with
  | none => (.error ⟨.notCallable, closing.line⟩, m)
  | some f =>
    match f.apply xs m.generator with
    | some (x, generator) => (.ok x, { m with generator })
    | none => (.error ⟨.arityMismatch f xs.length, closing.line⟩, m)

section

variable (env : Environment σ) (division : DivisionPolicy) (index : Nat)

mutual

/-- The value of an expression, or the first failure met, and the store
after it. -/
def Expr.evaluate : Expr → Store σ → Except Failure Float × Store σ
  | .number token, m => (.ok (literal token), m)
  | .name token, m => readName env index token m
  | .group inner _, m => inner.evaluate m
  | .call callee args closing, m =>
    match evaluateAll args m with
    | (.error e, m) => (.error e, m)
    | (.ok xs, m) => callName callee closing xs m
  | .unary op operand, m =>
    match operand.evaluate m with
    | (.error e, m) => (.error e, m)
    | (.ok x, m) => (.ok (op.apply x), m)
  | .binary op left right, m =>
    match left.evaluate m with
    | (.error e, m) => (.error e, m)
    | (.ok a, m) =>
      match right.evaluate m with
      | (.error e, m) => (.error e, m)
      | (.ok b, m) =>
        match op.value division a b with
        | .error fault => (.error ⟨fault, right.last.line⟩, m)
        | .ok x => (.ok x, m)
  | .assign target value, m =>
    match value.evaluate m with
    | (.error e, m) => (.error e, m)
    | (.ok x, m) => (.ok x, { m with bindings := m.bindings.set target.lexeme x })

/-- The values of arguments, in order. -/
def evaluateAll : List Expr → Store σ → Except Failure (List Float) × Store σ
  | [], m => (.ok [], m)
  | e :: rest, m =>
    match e.evaluate m with
    | (.error e, m) => (.error e, m)
    | (.ok x, m) =>
      match evaluateAll rest m with
      | (.error e, m) => (.error e, m)
      | (.ok xs, m) => (.ok (x :: xs), m)

end

/-- The statements of a program, each of which leaves its value as the last
one. -/
def evaluateStatements : List Statement → Store σ → Except Failure Unit × Store σ
  | [], m => (.ok (), m)
  | s :: rest, m =>
    match s.value.evaluate env division index m with
    | (.error e, m) => (.error e, m)
    | (.ok x, m) => evaluateStatements rest { m with bindings := { m.bindings with last := some x } }

/-- What a program comes to: its bindings or its first failure, and the
generator and the host after it. -/
def evaluate (program : List Statement) (generator : Generator) (host : σ) :
    Machine.Outcome σ :=
  match evaluateStatements env division index program ⟨.empty, generator, host⟩ with
  | (.ok (), m) => ⟨.ok m.bindings, m.generator, m.host⟩
  | (.error e, m) => ⟨.error e, m.generator, m.host⟩

end

end Syntax

end Pixelwise
