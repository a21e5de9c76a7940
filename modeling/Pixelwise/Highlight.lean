/-
Highlighting — a line of a program in coloured pieces.

Each token is a piece with a colour for its kind; what the scanner passes
over is dimmed.
-/
import Pixelwise.Token.Scan
import Pixelwise.Builtin.Basic

namespace Pixelwise

namespace Highlight

/-- The colours that are used. -/
inductive Colour where
  | cyan
  | blue
  | yellow
  | red
  | white
  | darkGray
deriving DecidableEq, Repr

/-- The colours of a piece of text. -/
structure Style where
  foreground : Colour
  background : Option Colour
deriving DecidableEq, Repr

/-- The style of text that the scanner passes over. -/
def skipped : Style := ⟨.darkGray, none⟩

/-- The style of a token, given the names of the inputs. -/
def style (inputs : List String) (token : Token) : Style :=
  match token.kind with
  | .number => ⟨.cyan, none⟩
  | .identifier =>
    if (Builtin.ofName? token.lexeme).isSome then ⟨.blue, none⟩
    else if token.lexeme ∈ inputs then ⟨.yellow, none⟩
    else ⟨.red, none⟩
  | .unexpected _ => ⟨.white, some .red⟩
  | _ => ⟨.white, none⟩

/-- The characters of the first `n` bytes of a text, and those after them. -/
def splitBytes (n : Nat) : List Char → List Char × List Char
  | [] => ([], [])
  | c :: cs =>
    if n = 0 then ([], c :: cs)
    else (c :: (splitBytes (n - c.utf8Size) cs).1, (splitBytes (n - c.utf8Size) cs).2)

/-- Skipped text as a piece, if there is any. -/
def gap (text : List Char) : List (String × Style) :=
  if text = [] then [] else [(String.ofList text, skipped)]

/-- The pieces of `text`, which starts at byte `offset`, with its tokens. -/
def pieces (inputs : List String) (offset : Nat) (text : List Char) :
    List Token → List (String × Style)
  | [] => gap text
  | t :: rest =>
    let split := splitBytes (t.span.start - offset) text
    gap split.1 ++ (t.lexeme, style inputs t) ::
      pieces inputs t.span.stop (splitBytes (t.span.stop - t.span.start) split.2).2 rest

end Highlight

/-- The pieces of a line, in order. -/
def highlight (inputs : List String) (line : String) : List (String × Highlight.Style) :=
  Highlight.pieces inputs 0 line.toList (Token.scan line)

end Pixelwise
