/-
Processors — machines that are kept between evaluations.

A processor holds a chunk and all that it is run with.  It is created with
room for as many values as its chunk says, which can be more than there can be
room for; what its stack then holds is not limited by that.  What an evaluation
leaves on the stack and among the bindings, finished or not, stays there
until the next one begins, which first clears both; the generator is never
cleared.

`draws` lists the numbers that calls of `rand` put on the stack.
-/
import Pixelwise.Capacity
import Pixelwise.Machine.Execute

namespace Pixelwise.Machine

variable {σ : Type}

/-! ## Where a run stops, and what it draws -/

section

variable (env : Environment σ) (division : DivisionPolicy) (index : Nat)

/-- The state in which a run of code stops: after its last instruction, or
before one that fails. -/
def stopped (s : State σ) : List Instruction → State σ
  | [] => s
  | i :: rest =>
    match execute env division index s i with
    | .ok t => stopped t rest
    | .error _ => s

/-- The numbers drawn by an instruction that takes the state `s` to `t`: a
call of `rand` draws the number that it leaves on the stack. -/
def drawn (i : Instruction) (s t : State σ) : List Float :=
  match i, s.stack, t.stack with
  | .call _, .function .rand :: _, .number x :: _ => [x]
  | _, _, _ => []

/-- The numbers drawn by a run of code, in order, those of a run that fails
included. -/
def draws (s : State σ) : List Instruction → List Float
  | [] => []
  | i :: rest =>
    match execute env division index s i with
    | .ok t => drawn i s t ++ draws t rest
    | .error _ => []

end

/-- A machine with its chunk. -/
structure Processor (σ : Type) where
  environment : Environment σ
  division : DivisionPolicy
  chunk : Chunk
  stack : List Value
  bindings : Bindings
  generator : Generator

namespace Processor

/-- A processor that draws from a given generator, once there is room for its
stack. -/
def ofGenerator (environment : Environment σ) (division : DivisionPolicy) (chunk : Chunk)
    (generator : Generator) : Processor σ :=
  ⟨environment, division, chunk, [], .empty, generator⟩

/-- How many bytes a value takes on a stack. -/
def valueSize : Nat := 16

/-- Create a processor.  The room that the chunk says is asked for at once, and
without it there is no processor. -/
def create (environment : Environment σ) (division : DivisionPolicy) (chunk : Chunk)
    (generator : Generator) : Except Panic (Processor σ) :=
  match reserve chunk.maxStackSize valueSize with
  | .ok () => .ok (ofGenerator environment division chunk generator)
  | .error panic => .error panic

/-- The state in which the processor begins an evaluation: its stack and its
bindings are cleared. -/
def cleared (p : Processor σ) (host : σ) : State σ :=
  { stack := [], bindings := .empty, generator := p.generator, host }

/-- Run the chunk at an index. -/
def evaluate (p : Processor σ) (index : Nat) (host : σ) :
    Except Failure Bindings × Processor σ × σ :=
  let start := p.cleared host
  let outcome := runFrom p.environment p.division index p.chunk 0 start p.chunk.instructions
  let last := stopped p.environment p.division index start p.chunk.instructions
  (outcome.result,
    { p with stack := last.stack, bindings := last.bindings, generator := last.generator },
    last.host)

/-- The numbers drawn by an evaluation. -/
def draws (p : Processor σ) (index : Nat) (host : σ) : List Float :=
  Machine.draws p.environment p.division index (p.cleared host) p.chunk.instructions

end Processor

end Pixelwise.Machine
