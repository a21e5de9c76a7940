/-
A scanner that gives one token at a time.

The scanner keeps what it has not read yet and where that begins.  Once the
text is used up it gives the token of the end, as often as it is asked.
-/
import Pixelwise.Token.Scan

namespace Pixelwise.Token

/-- A scanner in the middle of a text. -/
structure Scanner where
  source : String
  offset : Nat
  line : Nat
  text : List Char

namespace Scanner

/-- The scanner at the beginning of a text. -/
def ofSource (source : String) : Scanner :=
  ⟨source, 0, 1, source.toList⟩

/-- The next token of a text, and the scanner behind it. -/
def nextFrom (source : String) (offset line : Nat) (text : List Char) : Token × Scanner :=
  match text with
  | [] =>
    (⟨.endOfInput, "", line, ⟨source.utf8ByteSize, source.utf8ByteSize⟩⟩,
      ⟨source, offset, line, []⟩)
  | c :: cs =>
    if c = '\n' then nextFrom source (offset + 1) (line + 1) cs
    else if isBlank c then nextFrom source (offset + 1) line cs
    else if c = '#' then
      nextFrom source (offset + 1 + byteLength (cs.takeWhile (· ≠ '\n'))) line
        (cs.dropWhile (· ≠ '\n'))
    else
      (⟨(munch c cs).kind, String.ofList (munch c cs).lexeme, line,
          ⟨offset, offset + byteLength (munch c cs).lexeme⟩⟩,
        ⟨source, offset + byteLength (munch c cs).lexeme, line, (munch c cs).rest⟩)
termination_by text.length
decreasing_by
  · simp
  · simp
  · exact Nat.lt_succ_of_le (length_dropWhile_le _ cs)

/-- The next token, and the scanner behind it. -/
def next (s : Scanner) : Token × Scanner :=
  nextFrom s.source s.offset s.line s.text

/-- The scanner after a number of tokens. -/
def after : Nat → Scanner → Scanner
  | 0, s => s
  | n + 1, s => s.next.2.after n

/-- The token that is given when the scanner is asked again and again, the
first one being token 0. -/
def token (s : Scanner) (n : Nat) : Token :=
  (s.after n).next.1

end Scanner

end Pixelwise.Token
