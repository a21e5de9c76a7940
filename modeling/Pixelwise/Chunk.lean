/-
Chunks — code with the source line of each instruction.

A chunk made by hand may have a table of lines shorter than its code; the
line of an offset past the table is zero.  Lines are natural numbers, and those
of a compiled chunk are lines of its source.
-/
import Pixelwise.Instruction

namespace Pixelwise

/-- Code ready to be run. -/
structure Chunk where
  instructions : List Instruction
  lines : List Nat
  maxStackSize : Nat
deriving DecidableEq, Repr

namespace Chunk

/-- The source line of the instruction at an offset. -/
def lineAt (chunk : Chunk) (offset : Nat) : Nat :=
  chunk.lines[offset]?.getD 0

/-- Sameness of two chunks, with constants compared as numbers. -/
def agrees (a b : Chunk) : Bool :=
  a.instructions.length = b.instructions.length &&
    (a.instructions.zip b.instructions).all (fun p => p.1.agrees p.2) &&
    a.lines = b.lines && a.maxStackSize = b.maxStackSize

/-- The chunk of instructions paired with their lines, with room for the
deepest stack that they need. -/
def ofEmitted (emitted : List (Instruction × Nat)) : Chunk where
  instructions := emitted.map Prod.fst
  lines := emitted.map Prod.snd
  maxStackSize := peak (emitted.map Prod.fst)

end Chunk

end Pixelwise
