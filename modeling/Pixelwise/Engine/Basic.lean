/-
The engine — programs compiled against one environment, and their runs.

A program that compiled keeps a generator of its own, which each of its
evaluations takes up where the last one left it, also after a failure.
-/
import Pixelwise.Compiler.Program
import Pixelwise.Machine.Execute
import Pixelwise.Output

namespace Pixelwise

/-- Why the engine refuses a request. -/
inductive Error where
  | registration (e : RegistrationError)
  | compilation (source : String) (diagnostics : List Diagnostic)
  | runtime (failure : Failure)
  | halted
deriving DecidableEq, Repr

/-- The refusal in words. -/
def Error.message : Error → String
  | registration e => "API error: " ++ e.message
  | compilation _ diagnostics =>
    "Compilation failed with " ++ toString diagnostics.length ++ " error(s)"
  | runtime failure => "Runtime error: " ++ failure.message
  | halted => "Evaluation halted after an earlier runtime error"

/-- What all programs of a host share. -/
structure Engine (σ : Type) where
  environment : Environment σ
  division : DivisionPolicy
  seed : UInt64
  layout : Layout

/-- A program that compiled. -/
structure Program (σ : Type) where
  engine : Engine σ
  chunk : Chunk
  generator : Generator

variable {σ : Type}

/-- Compile a source against the inputs of the engine. -/
def Engine.compile (engine : Engine σ) (source : String) : Except Error (Program σ) :=
  match Pixelwise.compile engine.environment.names source with
  | .ok chunk => .ok ⟨engine, chunk, .ofSeed engine.seed⟩
  | .error diagnostics => .error (.compilation source diagnostics)

/-- A program that compiled has its chunk and a fresh generator. -/
theorem Engine.exists_of_compile {engine : Engine σ} {source : String} {program : Program σ}
    (h : engine.compile source = .ok program) :
    ∃ chunk, Pixelwise.compile engine.environment.names source = .ok chunk ∧
      program = ⟨engine, chunk, .ofSeed engine.seed⟩ := by
  unfold compile at h
  split at h
  · rename_i chunk hchunk
    exact ⟨chunk, hchunk, (Except.ok.inj h).symm⟩
  · cases h

namespace Program

/-- Run the code of a program with a generator. -/
def run (program : Program σ) (generator : Generator) (index : Nat) (host : σ) :
    Machine.Outcome σ :=
  Machine.run program.engine.environment program.engine.division index program.chunk generator
    host

/-- The outputs of a run, if it succeeded. -/
def outputs (program : Program σ) (result : Except Failure Bindings) : Except Error Outputs :=
  match result with
  | .ok bindings => .ok (program.engine.layout.extract bindings)
  | .error failure => .error (.runtime failure)

/-- Evaluate a program once; its generator has moved on afterwards. -/
def evaluate (program : Program σ) (index : Nat) (host : σ) :
    Except Error Outputs × Program σ × σ :=
  match program.run program.generator index host with
  | ⟨result, generator, host⟩ => (program.outputs result, { program with generator }, host)

end Program

end Pixelwise
