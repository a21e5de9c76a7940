/-
Spacing — the text that may stand between two tokens.

Blanks and line feeds are spacing, and so are comments if a line feed ends
them: behind a comment that goes on to the end of the text no token can
stand.  Spacing can be put in wherever a token begins or ends
(`Boundary`); what it leaves of a text are the kinds and the lexemes of its
tokens (`words`).
-/
import Pixelwise.Token.Scan

namespace Pixelwise.Token

/-- Blanks, line feeds, and comments that a line feed ends. -/
inductive Spacing : List Char → Prop
  | none : Spacing []
  | blank {c : Char} {cs : List Char} : isBlank c = true → Spacing cs → Spacing (c :: cs)
  | newline {cs : List Char} : Spacing cs → Spacing ('\n' :: cs)
  | comment {text cs : List Char} : '\n' ∉ text → Spacing cs →
      Spacing ('#' :: (text ++ '\n' :: cs))

/-- A token of the whole text, the one at its end included, begins or ends
where the two parts meet. -/
def Boundary (before after : String) : Prop :=
  ∃ t ∈ scan (before ++ after) ++ [endOf (before ++ after)],
    before.utf8ByteSize = t.span.start ∨ before.utf8ByteSize = t.span.stop

/-- What a token says: its kind and its lexeme. -/
def word (t : Token) : Kind × String :=
  (t.kind, t.lexeme)

/-- What the tokens of a text say, in order. -/
def words (source : String) : List (Kind × String) :=
  (scan source).map word

end Pixelwise.Token
