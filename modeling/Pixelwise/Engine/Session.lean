/-
Sessions — evaluations of one program that end with the first failure.

A session has a generator of its own, which starts at the seed of the
engine.  The failure that ends it is reported once; every evaluation asked
for afterwards is refused.
-/
import Pixelwise.Engine.Basic

namespace Pixelwise

/-- A run of evaluations of one program. -/
structure Session (σ : Type) where
  program : Program σ
  generator : Generator
  halted : Bool

variable {σ : Type}

/-- Start a session. -/
def Program.session (program : Program σ) : Session σ :=
  ⟨program, .ofSeed program.engine.seed, false⟩

namespace Session

/-- Evaluate the program once, unless the session has ended. -/
def evaluate (session : Session σ) (index : Nat) (host : σ) :
    Except Error Outputs × Session σ × σ :=
  if session.halted then (.error .halted, session, host)
  else
    match session.program.run session.generator index host with
    | ⟨.ok bindings, generator, host⟩ =>
      (.ok (session.program.engine.layout.extract bindings), { session with generator }, host)
    | ⟨.error failure, generator, host⟩ =>
      (.error (.runtime failure), { session with generator, halted := true }, host)

/-- Evaluate the program at each index of a frame, up to the first error. -/
def frame (session : Session σ) (indices : List Nat) (host : σ) :
    Except Error (List Outputs) × Session σ × σ :=
  match indices with
  | [] => (.ok [], session, host)
  | index :: rest =>
    match session.evaluate index host with
    | (.error e, session, host) => (.error e, session, host)
    | (.ok outputs, session, host) =>
      match session.frame rest host with
      | (.ok others, session, host) => (.ok (outputs :: others), session, host)
      | (.error e, session, host) => (.error e, session, host)

end Session

end Pixelwise
