/-
Highlighting by offsets — the pieces of a line, cut out of its bytes.

A piece can be cut out only between two boundaries of characters.  One loop
over the tokens keeps the offset up to which the line has been given out;
whatever lies between that offset and the next token was passed over.  The
loop gives nothing at all if one of its cuts is not possible.
-/
import Pixelwise.Highlight

namespace Pixelwise.Highlight

/-- The text from one byte offset to another.  There is none if they are in
the wrong order, or if one of them is inside a character or behind the end. -/
def slice? (line : String) (start stop : Nat) : Option String :=
  if start ≤ stop ∧ String.Pos.Raw.isValid line ⟨start⟩ ∧ String.Pos.Raw.isValid line ⟨stop⟩ then
    some (String.Pos.Raw.extract line ⟨start⟩ ⟨stop⟩)
  else none

/-- The text between two offsets as a skipped piece, if there is any. -/
def skip? (line : String) (start stop : Nat) : Option (List (String × Style)) :=
  if start < stop then (slice? line start stop).map fun text => [(text, skipped)]
  else some []

/-- The pieces of a line that has been given out up to byte `last`, with the
tokens that are left. -/
def paintFrom? (inputs : List String) (line : String) (last : Nat) :
    List Token → Option (List (String × Style))
  | [] => skip? line last line.utf8ByteSize
  | t :: rest => do
    let before ← skip? line last t.span.start
    let behind ← paintFrom? inputs line t.span.stop rest
    return before ++ (t.lexeme, style inputs t) :: behind

/-- The pieces of a line. -/
def paint? (inputs : List String) (line : String) : Option (List (String × Style)) :=
  paintFrom? inputs line 0 (Token.scan line)

end Pixelwise.Highlight
