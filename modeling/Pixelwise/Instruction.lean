/-
Instructions — what the machine executes, and what each does to the depth
of its stack.

There are no jumps: code is a list of instructions, run from first to
last.  `peak` is the greatest depth that a list reaches from the empty
stack.
-/
import Pixelwise.Operator

namespace Pixelwise

/-- One step of the machine. -/
inductive Instruction where
  /-- Push a number. -/
  | constant (value : Float)
  /-- Push what a name stands for. -/
  | get (name : String)
  /-- Pop a number and bind it to a name. -/
  | set (name : String)
  /-- Pop that many arguments and the function under them; push its result. -/
  | call (argc : Nat)
  /-- Drop the top of the stack. -/
  | pop
  /-- Replace the top of the stack. -/
  | unary (op : UnaryOp)
  /-- Replace the two topmost numbers by one. -/
  | binary (op : BinaryOp)
deriving DecidableEq, Repr

/-- How many values are taken off the stack, and how many are then put on. -/
structure StackEffect where
  pops : Nat
  pushes : Nat
deriving DecidableEq, Repr

/-- The depth after an effect; an empty stack stays empty when popped. -/
def StackEffect.apply (e : StackEffect) (depth : Nat) : Nat :=
  depth - e.pops + e.pushes

namespace Instruction

/-- What an instruction does to the stack when it succeeds. -/
def effect : Instruction → StackEffect
  | constant _ | get _ => ⟨0, 1⟩
  | set _ | pop => ⟨1, 0⟩
  | call argc => ⟨argc + 1, 1⟩
  | unary _ => ⟨1, 1⟩
  | binary _ => ⟨2, 1⟩

/-- Sameness of two instructions as programs see it: constants are compared
as numbers, so the two zeros agree and a number that is none agrees with
nothing. -/
def agrees : Instruction → Instruction → Bool
  | constant a, constant b => a == b
  | i, j => i = j

/-- The instructions that can fail in code made from a program. -/
def canFail : Instruction → Bool
  | get _ => true
  | binary op => op.hasDivisor
  | _ => false

end Instruction

/-- The greatest depth at any point of code that starts at `depth`. -/
def peakFrom (depth : Nat) : List Instruction → Nat
  | [] => depth
  | i :: rest => max depth (peakFrom (i.effect.apply depth) rest)

/-- The greatest depth that code reaches from the empty stack. -/
def peak (code : List Instruction) : Nat :=
  peakFrom 0 code

/-- The code of an operator, after that of its operands. -/
def Operator.code (op : Operator) : List Instruction :=
  if op.negated then [.binary op.operation, .unary .not] else [.binary op.operation]

end Pixelwise
