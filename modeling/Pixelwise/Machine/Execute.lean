/-
Execution — what one instruction does, and how code is run.

Code is run from first to last and stops at the first fault.  An
instruction that meets a fault neither draws a number nor reads a computed
input, so the generator and the host are then as the instructions before it
left them.
-/
import Pixelwise.Machine.State
import Pixelwise.Chunk

namespace Pixelwise

open Arithmetic

/-- What an operation makes of a number. -/
def UnaryOp.apply : UnaryOp → Float → Float
  | negate, a => -a
  | not, a => ofBool (!isTrue a)

/-- What an operation makes of two numbers, division by zero apart. -/
def BinaryOp.apply : BinaryOp → Float → Float → Float
  | equal, a, b => ofBool (a == b)
  | greater, a, b => ofBool (a > b)
  | less, a, b => ofBool (a < b)
  | add, a, b => a + b
  | subtract, a, b => a - b
  | multiply, a, b => a * b
  | divide, a, b => a / b
  | power, a, b => a ^ b
  | remainder, a, b => Arithmetic.remainder a b
  | and, a, b => ofBool (isTrue a && isTrue b)
  | or, a, b => ofBool (isTrue a || isTrue b)

/-- What an operation makes of two numbers under a policy. -/
def BinaryOp.evaluate (op : BinaryOp) (division : DivisionPolicy) (a b : Float) :
    Except Fault Float :=
  if op.hasDivisor ∧ b == 0 then
    match division with
    | .zero => .ok 0
    | .fail => .error .divisionByZero
  else .ok (op.apply a b)

namespace Machine

variable {σ : Type}

/-- Take a value off the stack. -/
def popValue : List Value → Except Fault (Value × List Value)
  | [] => .error .stackUnderflow
  | v :: rest => .ok (v, rest)

/-- Take a number off the stack. -/
def popNumber : List Value → Except Fault (Float × List Value)
  | [] => .error .stackUnderflow
  | .number x :: rest => .ok (x, rest)
  | .function f :: _ => .error (.unexpectedFunction f)

/-- Take several numbers off the stack, in the order in which they were put
there. -/
def popNumbers : Nat → List Value → Except Fault (List Float × List Value)
  | 0, stack => .ok ([], stack)
  | n + 1, stack => do
    let (x, rest) ← popNumber stack
    let (xs, rest) ← popNumbers n rest
    return (xs ++ [x], rest)

/-- What a name stands for: a function of the library, or else an input, or
else a binding. -/
def resolve (env : Environment σ) (index : Nat) (name : String) (s : State σ) :
    Except Fault (Value × σ) :=
  match Builtin.ofName? name with
  | some f => .ok (.function f, s.host)
  | none =>
    match env.resolve name index s.host with
    | .error e => .error (.indexOutOfBounds e)
    | .ok (some value, host) => .ok (.number value, host)
    | .ok (none, host) =>
      match s.bindings.get? name with
      | some value => .ok (.number value, host)
      | none => .error (.undefinedName name)

/-- Call the function under `argc` arguments. -/
def call (argc : Nat) (s : State σ) : Except Fault (State σ) := do
  let (args, rest) ← popNumbers argc s.stack
  let (callee, rest) ← popValue rest
  match callee with
  | .number _ => .error .notCallable
  | .function f =>
    match f.apply args s.generator with
    | some (result, generator) => .ok { s with stack := .number result :: rest, generator }
    | none => .error (.arityMismatch f argc)

/-- Execute one instruction. -/
def execute (env : Environment σ) (division : DivisionPolicy) (index : Nat) (s : State σ) :
    Instruction → Except Fault (State σ)
  | .constant value => .ok { s with stack := .number value :: s.stack }
  | .get name => do
    let (value, host) ← resolve env index name s
    return { s with stack := value :: s.stack, host }
  | .set name => do
    let (value, rest) ← popNumber s.stack
    return { s with stack := rest, bindings := s.bindings.set name value }
  | .call argc => call argc s
  | .pop => do
    let (value, rest) ← popValue s.stack
    return { s with stack := rest, bindings := s.bindings.note value }
  | .unary op => do
    let (a, rest) ← popNumber s.stack
    return { s with stack := .number (op.apply a) :: rest }
  | .binary op => do
    let (b, rest) ← popNumber s.stack
    let (a, rest) ← popNumber rest
    let result ← op.evaluate division a b
    return { s with stack := .number result :: rest }

/-- What a run comes to: its bindings or its failure, and the generator and
the host after it. -/
structure Outcome (σ : Type) where
  result : Except Failure Bindings
  generator : Generator
  host : σ

/-- Run the code that stands at an offset of a chunk. -/
def runFrom (env : Environment σ) (division : DivisionPolicy) (index : Nat) (chunk : Chunk)
    (offset : Nat) (s : State σ) : List Instruction → Outcome σ
  | [] => ⟨.ok s.bindings, s.generator, s.host⟩
  | i :: rest =>
    match execute env division index s i with
    | .ok t => runFrom env division index chunk (offset + 1) t rest
    | .error fault => ⟨.error ⟨fault, chunk.lineAt offset⟩, s.generator, s.host⟩

/-- Run a chunk at an index, from an empty stack and without bindings. -/
def run (env : Environment σ) (division : DivisionPolicy) (index : Nat) (chunk : Chunk)
    (generator : Generator) (host : σ) : Outcome σ :=
  runFrom env division index chunk 0 ⟨[], .empty, generator, host⟩ chunk.instructions

end Machine

end Pixelwise
