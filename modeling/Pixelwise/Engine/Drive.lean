/-
Drives — one evaluation after another.

There are several ways to evaluate a chunk at a list of indices: by the
program, which takes up its generator where the last evaluation left it; by a
session; by one processor that is used again and again; and by a new
processor for each evaluation, which is given the generator of the one
before.  A drive lists what each evaluation came to and which numbers were
drawn for it.
-/
import Pixelwise.Engine.Session
import Pixelwise.Machine.Processor

namespace Pixelwise

variable {σ : Type}

/-- What an evaluation came to, and the numbers that were drawn for it. -/
structure Evaluation (α : Type) where
  answer : α
  drawn : List Float

/-- Take one step after another: the evaluations, and the state after the
last one. -/
def drive {ι α S : Type} (step : ι → S → Evaluation α × S) : List ι → S → List (Evaluation α) × S
  | [], s => ([], s)
  | i :: rest, s =>
    let first := step i s
    let others := drive step rest first.2
    (first.1 :: others.1, others.2)

/-- The evaluations up to the first failure, which is the last of them. -/
def upToFailure {ε α : Type} : List (Evaluation (Except ε α)) → List (Evaluation (Except ε α))
  | [] => []
  | e :: rest =>
    match e.answer with
    | .ok _ => e :: upToFailure rest
    | .error _ => [e]

/-- The numbers drawn by a run of a program. -/
def Program.draws (program : Program σ) (generator : Generator) (index : Nat) (host : σ) :
    List Float :=
  Machine.draws program.engine.environment program.engine.division index
    ⟨[], .empty, generator, host⟩ program.chunk.instructions

/-- An evaluation by the program. -/
def Program.step (index : Nat) (at' : Program σ × σ) :
    Evaluation (Except Error Outputs) × Program σ × σ :=
  let (program, host) := at'
  let (answer, next) := program.evaluate index host
  (⟨answer, program.draws program.generator index host⟩, next)

/-- An evaluation by a session; once it has ended it draws nothing. -/
def Session.step (index : Nat) (at' : Session σ × σ) :
    Evaluation (Except Error Outputs) × Session σ × σ :=
  let (session, host) := at'
  let (answer, next) := session.evaluate index host
  let drawn := if session.halted then [] else session.program.draws session.generator index host
  (⟨answer, drawn⟩, next)

namespace Machine.Processor

/-- An evaluation by a processor. -/
def step (index : Nat) (at' : Processor σ × σ) :
    Evaluation (Except Failure Bindings) × Processor σ × σ :=
  let (p, host) := at'
  let (answer, next) := p.evaluate index host
  (⟨answer, p.draws index host⟩, next)

/-- An evaluation by a new processor, which hands its generator on. -/
def handOn (environment : Environment σ) (division : DivisionPolicy) (chunk : Chunk)
    (index : Nat) (at' : Generator × σ) :
    Evaluation (Except Failure Bindings) × Generator × σ :=
  let (generator, host) := at'
  let (e, p, host) := step index (ofGenerator environment division chunk generator, host)
  (e, p.generator, host)

end Machine.Processor

end Pixelwise
