/-
The pixel grid — the inputs that programs of the command line can read.

Pixels are counted row by row.  Their number is that of columns times that
of rows in a word of 64 bits.  A grid has three sequences with an entry for
each pixel, and there has to be room for them.  The clock is computed: its
value is the state of the host.
-/
import Pixelwise.Capacity
import Pixelwise.Engine.Session
import Pixelwise.Environment.Builder

namespace Pixelwise.Command

/-- The size of a grid. -/
structure Grid where
  width : Nat
  height : Nat
deriving DecidableEq, Repr

namespace Grid

/-- How many pixels are evaluated. -/
def count (g : Grid) : Nat :=
  g.width * g.height % UInt64.size

/-- How many bytes an entry of a sequence takes. -/
def entrySize : Nat := 8

/-- Ask for the room of a sequence; the three are of one size, and the first
that finds no room ends it. -/
def reserve (g : Grid) : Except Panic Unit :=
  Pixelwise.reserve g.count entrySize

/-- The column of each pixel, as a part of the width. -/
def x (g : Grid) : Array Float :=
  (Array.range g.count).map fun i => Float.ofNat (i % g.width) / Float.ofNat g.width

/-- The row of each pixel, as a part of the height. -/
def y (g : Grid) : Array Float :=
  (Array.range g.count).map fun i => Float.ofNat (i / g.width) / Float.ofNat g.height

/-- The number of each pixel. -/
def index (g : Grid) : Array Float :=
  (Array.range g.count).map Float.ofNat

/-- The inputs of a grid and its clock. -/
def inputs (g : Grid) : List (String × Input Float) := [
  ("x", .sequence g.x),
  ("y", .sequence g.y),
  ("index", .sequence g.index),
  ("width", .constant (Float.ofNat g.width)),
  ("height", .constant (Float.ofNat g.height)),
  ("t", .computed fun clock => (clock, clock))]

/-- The environment of a grid. -/
def environment (g : Grid) : Except RegistrationError (Environment Float) :=
  Environment.Builder.ofList g.inputs

end Grid

end Pixelwise.Command
