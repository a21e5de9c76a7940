/-
Listings — chunks as text, one instruction to a line.

A line gives the offset, the source line or a bar when it is that of the
instruction before, the instruction with its operand, and a mark on those
that can fail.
-/
import Pixelwise.Chunk
import Pixelwise.Decimal.Positional

namespace Pixelwise

namespace Listing

/-- Text moved to the right of a column. -/
def padLeft (width : Nat) (fill : Char) (text : String) : String :=
  String.ofList (List.replicate (width - text.length) fill) ++ text

/-- Text moved to the left of a column. -/
def padRight (width : Nat) (text : String) : String :=
  text ++ String.ofList (List.replicate (width - text.length) ' ')

end Listing

open Listing

/-- The name of an operation in listings. -/
def UnaryOp.mnemonic : UnaryOp → String
  | negate => "Negate"
  | not => "Not"

/-- The name of an operation in listings. -/
def BinaryOp.mnemonic : BinaryOp → String
  | equal => "Equal"
  | greater => "Greater"
  | less => "Less"
  | add => "Add"
  | subtract => "Subtract"
  | multiply => "Multiply"
  | divide => "Divide"
  | power => "Exp"
  | remainder => "Mod"
  | and => "And"
  | or => "Or"

namespace Instruction

/-- The name of an instruction in listings. -/
def mnemonic : Instruction → String
  | constant _ => "Constant"
  | get _ => "Get"
  | set _ => "Set"
  | call _ => "Call"
  | pop => "Pop"
  | unary op => op.mnemonic
  | binary op => op.mnemonic

/-- What an instruction carries, as text. -/
def operand? : Instruction → Option String
  | constant value => some (Decimal.write value)
  | get name | set name => some name
  | call argc => some (toString argc)
  | _ => none

/-- An instruction as listings show it. -/
def describe (i : Instruction) : String :=
  match i.operand? with
  | some operand => padRight 10 i.mnemonic ++ " " ++ operand
  | none => i.mnemonic

end Instruction

namespace Chunk

/-- The column of source lines: a bar for the line of the instruction
before. -/
def lineColumn (previous : Option Nat) (line : Nat) : String :=
  if previous = some line then "   |" else padLeft 4 ' ' (toString line)

/-- The listing of one instruction. -/
def listInstruction (offset : Nat) (previous : Option Nat) (line : Nat) (i : Instruction) :
    String :=
  "    " ++ padLeft 4 '0' (toString offset) ++ " " ++ lineColumn previous line ++ "  " ++
    i.describe ++ " " ++ (if i.canFail then "(!)" else "") ++ "\n"

/-- The listing of instructions from an offset on, with their lines; where
the lines run out they are zero. -/
def listFrom (offset : Nat) (previous : Option Nat) : List Instruction → List Nat → List String
  | [], _ => []
  | i :: rest, lines =>
    listInstruction offset previous (lines.headD 0) i ::
      listFrom (offset + 1) (some (lines.headD 0)) rest lines.tail

/-- The listing of a chunk. -/
def listing (chunk : Chunk) : String :=
  "Chunk \x7b\n  max_stack_size: " ++ toString chunk.maxStackSize ++ "\n  instructions:\n" ++
    String.join (listFrom 0 none chunk.instructions chunk.lines) ++ "\x7d"

end Chunk

end Pixelwise
