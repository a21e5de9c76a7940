/-
Cells — what the pixels of a grid stand for.

A grid has a cell for every column of every row.  Its pixels are numbered row
by row, and the number of a pixel, divided by the width with remainder, is its
row and its column.
-/
import Pixelwise.Command.Sweep

namespace Pixelwise.Command

/-- The cell of a pixel: its column and its row. -/
def Grid.cell (g : Grid) (pixel : Nat) : Nat × Nat :=
  (pixel % g.width, pixel / g.width)

/-- The cells of the first rows, row by row. -/
def Grid.cellsOf (g : Grid) (rows : Nat) : List (Nat × Nat) :=
  (List.range rows).flatMap fun row => (List.range g.width).map fun column => (column, row)

/-- All cells, row by row. -/
def Grid.cells (g : Grid) : List (Nat × Nat) :=
  g.cellsOf g.height

end Pixelwise.Command
