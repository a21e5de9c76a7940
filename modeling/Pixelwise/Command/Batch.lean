/-
Batch runs — one program, evaluated at every pixel of every frame.

One session runs through all frames, so its random numbers go on from frame
to frame.  The run ends with the first error; what was printed before it
stays printed.
-/
import Pixelwise.Command.Options
import Pixelwise.Command.Grid
import Pixelwise.Chunk.Listing
import Pixelwise.Report.Render

namespace Pixelwise.Command

/-- What a command leaves: its exit code and what it wrote. -/
structure Result where
  exitCode : Nat
  stdout : String
  stderr : String
deriving DecidableEq, Repr

/-- A result with nothing but a complaint. -/
def Result.failure (exitCode : Nat) (complaint : String) : Result :=
  ⟨exitCode, "", "Error: " ++ complaint ++ "\n"⟩

/-- A result of a command that ended on the spot. -/
def Result.panicked (panic : Panic) : Result :=
  ⟨101, "", panic.message ++ "\n"⟩

namespace Options

/-- The grid that is asked for. -/
def grid (o : Options) : Grid :=
  ⟨o.width, o.height⟩

/-- The engine for a grid.  Without a seed the generator starts at
`entropy`. -/
def engine (o : Options) (entropy : UInt64) : Except RegistrationError (Engine Float) :=
  o.grid.environment.map fun environment =>
    { environment
      division := if o.failOnDivideByZero then .fail else .zero
      seed := o.seed.getD entropy
      layout := .pixel }

/-- The clock at a frame. -/
def clock (o : Options) (frame : Nat) : Float :=
  Float.ofNat frame * o.dt

end Options

namespace Batch

/-- The line that shows the outputs of a pixel. -/
def line (frame pixel : Nat) (outputs : Outputs) : String :=
  Listing.padLeft 4 ' ' (toString frame) ++ " " ++ Listing.padLeft 6 ' ' (toString pixel) ++ "  " ++
    outputs.describe ++ "\n"

/-- Where a run ended early, and why. -/
structure Interruption where
  frame : Nat
  pixel : Nat
  error : Error

/-- How far a run has come: the lines printed, the session, and the end if
it was early. -/
structure Progress where
  printed : Array String
  session : Session Float
  interruption : Option Interruption

/-- Evaluate as many pixels of a frame as remain, from `pixel` on. -/
def pixels (frame : Nat) (clock : Float) (p : Progress) : (remaining pixel : Nat) → Progress
  | 0, _ => p
  | remaining + 1, pixel =>
    match p.session.evaluate pixel clock with
    | (.error error, session, _) =>
      { p with session, interruption := some ⟨frame, pixel, error⟩ }
    | (.ok outputs, session, clock) =>
      pixels frame clock { p with printed := p.printed.push (line frame pixel outputs), session }
        remaining (pixel + 1)

/-- Evaluate as many frames as remain, from `frame` on, each with `count`
pixels; an interruption ends them all. -/
def frames (o : Options) (count : Nat) (p : Progress) : (remaining frame : Nat) → Progress
  | 0, _ => p
  | remaining + 1, frame =>
    let now := pixels frame (o.clock frame) p count 0
    if now.interruption.isSome then now else frames o count now remaining (frame + 1)

/-- The listing of a program, if it is asked for. -/
def listing (o : Options) (program : Program Float) : String :=
  if o.disassemble then program.chunk.listing ++ "\n" else ""

/-- Compile a program and run it on an engine. -/
def runOn (o : Options) (engine : Engine Float) (source : String) : Result :=
  match engine.compile source with
  | .error e => ⟨1, "", Report.render true e ++ "Error: compilation failed\n"⟩
  | .ok program =>
    let progress := frames o o.grid.count ⟨#[], program.session, none⟩ o.frames 0
    let stdout := listing o program ++ String.join progress.printed.toList
    match progress.interruption with
    | none => ⟨0, stdout, ""⟩
    | some i => ⟨1, stdout, Report.render true i.error ++ "Error: evaluation stopped at frame " ++
        toString i.frame ++ ", pixel " ++ toString i.pixel ++ "\n"⟩

/-- Compile a program and run it. -/
def run (o : Options) (entropy : UInt64) (source : String) : Result :=
  match o.engine entropy with
  | .error e => .failure 1 e.message
  | .ok engine => runOn o engine source

end Batch

end Pixelwise.Command
