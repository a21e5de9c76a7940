/-
Sweeps — a program, evaluated at one site after another in a single session.

A site is a frame and a pixel.  The clock of its frame is set before the
evaluation at a site, and the random numbers go on from site to site.  A
sweep keeps of every evaluation its answer, the numbers that were drawn for
it, and whether its code came to a zero divisor.

What a sweep shows is spelled out here character by character, apart from how
it is printed.
-/
import Pixelwise.Command.Batch
import Pixelwise.Engine.Drive
import Pixelwise.Machine.Divisor

namespace Pixelwise

/-- One evaluation of a sweep. -/
structure Sample where
  frame : Nat
  pixel : Nat
  answer : Except Error Outputs
  drawn : List Float
  zeroDivisor : Bool

/-- The frame and the pixel. -/
def Sample.site (s : Sample) : Nat × Nat :=
  (s.frame, s.pixel)

/-- A number in a column of so many characters, with blanks before it. -/
def Sample.column (width n : Nat) : String :=
  String.ofList
    (List.replicate (width - (Nat.toDigits 10 n).length) ' ' ++ Nat.toDigits 10 n)

/-- Values behind their names, with a blank between one and the next. -/
def Sample.items : List (String × Float) → String
  | [] => ""
  | [(name, x)] => name ++ "=" ++ Decimal.write x
  | (name, x) :: value :: rest => name ++ "=" ++ Decimal.write x ++ " " ++ items (value :: rest)

/-- The frame, the pixel and the outputs on a line. -/
def Sample.row (frame pixel : Nat) (outputs : Outputs) : String :=
  column 4 frame ++ " " ++ column 6 pixel ++ "  " ++ items outputs.values ++ "\n"

/-- The line that shows the outputs of the evaluation, if it has any. -/
def Sample.line (s : Sample) : String :=
  match s.answer with
  | .ok outputs => row s.frame s.pixel outputs
  | .error _ => ""

/-- The program, with divisions by zero that come to zero. -/
def Program.lenient {σ : Type} (program : Program σ) : Program σ :=
  { program with engine := { program.engine with division := .zero } }

namespace Session

/-- Evaluate at a site, with the clock that belongs to it. -/
def sample (session : Session Float) (clock : Float) (frame pixel : Nat) :
    Sample × Session Float :=
  let (e, next, _) := step pixel (session, clock)
  let program := session.program
  (⟨frame, pixel, e.answer, e.drawn,
      Machine.meetsZero program.engine.environment pixel
        ⟨[], .empty, session.generator, clock⟩ program.chunk.instructions⟩, next)

/-- Evaluate at sites, in order. -/
def sweep (clock : Nat → Float) : List (Nat × Nat) → Session Float → List Sample
  | [], _ => []
  | (frame, pixel) :: rest, session =>
    let (first, next) := session.sample (clock frame) frame pixel
    first :: sweep clock rest next

end Session

namespace Command.Options

/-- The sites of a run with so many pixels in each frame. -/
def sitesOf (o : Options) (count : Nat) : List (Nat × Nat) :=
  (List.range o.frames).flatMap fun frame => (List.range count).map fun pixel => (frame, pixel)

/-- All sites of a run: frame by frame, and pixel by pixel in each of them. -/
def sites (o : Options) : List (Nat × Nat) :=
  (List.range o.frames).flatMap fun frame =>
    (List.range (o.width * o.height)).map fun pixel => (frame, pixel)

/-- What a run shows above its lines: the listing of the program, if that is asked
for. -/
def preface (o : Options) (program : Program Float) : String :=
  if o.disassemble then program.chunk.listing ++ "\n" else ""

/-- The program text of a run that is not interactive, as the options choose it
among the arguments, the files and the standard input. -/
def source? (o : Options) (file : String → Option String) (stdin : String) : Option String :=
  match o.program, o.file with
  | some source, _ => some source
  | none, some path => file path
  | none, none => some stdin

end Command.Options

end Pixelwise
