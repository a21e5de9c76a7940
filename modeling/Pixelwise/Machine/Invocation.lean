/-
Invocations — the functions that code invokes, with what they are handed.

This machine does what `execute` and `runFrom` do, and keeps a list of the
functions that it invokes.  A call takes its arguments off first, one by one
and the last one first, and puts them in order; then it looks at what is under
them and compares the numbers of arguments; and only then it hands them to the
function, which reads them by position.  If a function reads a position where
there is no argument, the machine has no outcome but that position.
-/
import Pixelwise.Builtin.Body
import Pixelwise.Machine.Execute

namespace Pixelwise.Machine

variable {σ : Type}

/-- A function that was invoked by a call in a state: the arguments that it
was handed, and the positions that it read. -/
structure Invocation (σ : Type) where
  state : State σ
  function : Builtin
  arguments : List Float
  positions : List Nat

/-- Take several numbers off the stack, the topmost first. -/
def popEach : Nat → List Value → Except Fault (List Float × List Value)
  | 0, stack => .ok ([], stack)
  | n + 1, stack => do
    let (x, rest) ← popNumber stack
    let (xs, rest) ← popEach n rest
    return (x :: xs, rest)

/-- Call the function under `argc` arguments. -/
def watchCall (argc : Nat) (s : State σ) :
    Except Nat (Except Fault (State σ) × List (Invocation σ)) :=
  match popEach argc s.stack with
  | .error fault => .ok (.error fault, [])
  | .ok (args, rest) =>
    match popValue rest with
    | .error fault => .ok (.error fault, [])
    | .ok (.number _, _) => .ok (.error .notCallable, [])
    | .ok (.function f, rest) =>
      if f.arity ≠ argc then .ok (.error (.arityMismatch f argc), [])
      else do
        let (x, usage) ← f.invoke args.reverse s.generator
        return (.ok { s with stack := .number x :: rest, generator := usage.generator },
          [⟨s, f, args.reverse, usage.positions⟩])

variable (env : Environment σ) (division : DivisionPolicy) (index : Nat)

/-- Execute one instruction; only a call invokes functions. -/
def watch (s : State σ) : Instruction →
    Except Nat (Except Fault (State σ) × List (Invocation σ))
  | .call argc => watchCall argc s
  | i => .ok (execute env division index s i, [])

/-- Run the code that stands at an offset of a chunk. -/
def watchFrom (chunk : Chunk) (offset : Nat) (s : State σ) : List Instruction →
    Except Nat (Outcome σ × List (Invocation σ))
  | [] => .ok (⟨.ok s.bindings, s.generator, s.host⟩, [])
  | i :: rest => do
    match ← watch env division index s i with
    | (.ok t, first) =>
      let (outcome, others) ← watchFrom chunk (offset + 1) t rest
      return (outcome, first ++ others)
    | (.error fault, first) =>
      return (⟨.error ⟨fault, chunk.lineAt offset⟩, s.generator, s.host⟩, first)

end Pixelwise.Machine
