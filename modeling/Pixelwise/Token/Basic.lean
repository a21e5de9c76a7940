/-
Tokens — the words of the expression language.

A token is a kind, the text it was read from, and where that text stands:
the line, counted from one, and the range of byte offsets.  A character
that starts no token of the language is a token of its own, of the kind
that carries the character.

Lines are natural numbers of any size.  A scanned token is on a line that is at
most one more than there are line feeds in the text.
-/

namespace Pixelwise

/-- A half-open range of byte offsets into a text. -/
structure Span where
  start : Nat
  stop : Nat
deriving DecidableEq, Repr

namespace Token

/-- What a token is. -/
inductive Kind where
  | leftParen
  | rightParen
  | semicolon
  | comma
  | plus
  | minus
  | star
  | slash
  | caret
  | percent
  | ampersand
  | pipe
  | bang
  | bangEqual
  | equal
  | equalEqual
  | greater
  | greaterEqual
  | less
  | lessEqual
  | identifier
  | number
  | unexpected (c : Char)
  | endOfInput
deriving DecidableEq, Repr

namespace Kind

/-- The kind as a reader is told of it: fixed tokens in quotes, the others
by a description. -/
def describe : Kind → String
  | leftParen => "'('"
  | rightParen => "')'"
  | semicolon => "';'"
  | comma => "','"
  | plus => "'+'"
  | minus => "'-'"
  | star => "'*'"
  | slash => "'/'"
  | caret => "'^'"
  | percent => "'%'"
  | ampersand => "'&'"
  | pipe => "'|'"
  | bang => "'!'"
  | bangEqual => "'!='"
  | equal => "'='"
  | equalEqual => "'=='"
  | greater => "'>'"
  | greaterEqual => "'>='"
  | less => "'<'"
  | lessEqual => "'<='"
  | identifier => "identifier"
  | number => "number"
  | unexpected _ => "invalid token"
  | endOfInput => "end of input"

/-- Kinds of characters that belong to no token. -/
def isUnexpected : Kind → Bool
  | unexpected _ => true
  | _ => false

end Kind

end Token

/-- A token with the text it was read from and where that text stands. -/
structure Token where
  kind : Token.Kind
  lexeme : String
  line : Nat
  span : Span
deriving DecidableEq, Repr

end Pixelwise
