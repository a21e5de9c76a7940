/-
The lexicon — which texts are tokens, and of which kind.

The words of each kind are a language over characters, and none of these
languages says how a text is read.  `Takes` says which token stands at the
front of a text: the longest word of any kind, or one single character where
no word begins.  `Lexes` says what the tokens of a whole text are: what lies
between them is passed over as far as it goes, and then one token is taken.
-/
import Mathlib.Computability.Language
import Pixelwise.Token.Spacing

open Computability

namespace Pixelwise.Token

/-! ## The words of a kind -/

/-- The texts of one character of a class. -/
def one (p : Char → Bool) : Language Char :=
  {w | ∃ c, p c = true ∧ w = [c]}

/-- An ASCII letter, an underscore or an apostrophe. -/
def letter : Language Char :=
  one fun c => c.isAlpha || c = '_' || c = '\''

/-- An ASCII digit. -/
def digit : Language Char :=
  one Char.isDigit

/-- At least one digit. -/
def digits : Language Char :=
  digit * digit∗

/-- The words of a kind.  There are none of the kinds that stand for what is
no word: a character that begins none, and the end of the text. -/
def Kind.lexemes : Kind → Language Char
  | .leftParen => {['(']}
  | .rightParen => {[')']}
  | .semicolon => {[';']}
  | .comma => {[',']}
  | .plus => {['+']}
  | .minus => {['-']}
  | .star => {['*']}
  | .slash => {['/']}
  | .caret => {['^']}
  | .percent => {['%']}
  | .ampersand => {['&']}
  | .pipe => {['|']}
  | .bang => {['!']}
  | .bangEqual => {['!', '=']}
  | .equal => {['=']}
  | .equalEqual => {['=', '=']}
  | .greater => {['>']}
  | .greaterEqual => {['>', '=']}
  | .less => {['<']}
  | .lessEqual => {['<', '=']}
  | .identifier => letter * (letter + digit)∗
  | .number => digits * (1 + {['.']} * digits) + {['.']} * digits
  | .unexpected _ => 0
  | .endOfInput => 0

/-! ## One token -/

/-- At the front of `lexeme ++ rest` stands the token `lexeme`. -/
inductive Takes : Kind → List Char → List Char → Prop
  | longest {kind : Kind} {lexeme rest : List Char} : lexeme ∈ kind.lexemes →
      (∀ (other : Kind) (word : List Char), word <+: lexeme ++ rest → word ∈ other.lexemes →
        word.length ≤ lexeme.length) →
      Takes kind lexeme rest
  | unexpected {c : Char} {rest : List Char} :
      (∀ (other : Kind) (word : List Char), word <+: c :: rest → word ∉ other.lexemes) →
      Takes (.unexpected c) [c] rest

/-! ## The whole text -/

/-- Spacing that goes on to the end of the text, where a comment may still
be open. -/
inductive Trailing : List Char → Prop
  | spacing {gap : List Char} : Spacing gap → Trailing gap
  | comment {gap text : List Char} : Spacing gap → '\n' ∉ text → Trailing (gap ++ '#' :: text)

/-- The text opens with a character that is not passed over. -/
def Opens (text : List Char) : Prop :=
  ∃ c cs, text = c :: cs ∧ c ∉ [' ', '\t', '\r', '\n', '#']

/-- The tokens of a text that stands behind `before`. -/
inductive Lexes : List Char → List Char → List Token → Prop
  | done {before gap : List Char} : Trailing gap → Lexes before gap []
  | token {before gap lexeme rest : List Char} {kind : Kind} {tokens : List Token} :
      Spacing gap → Opens (lexeme ++ rest) → Takes kind lexeme rest →
      Lexes (before ++ gap ++ lexeme) rest tokens →
      Lexes before (gap ++ (lexeme ++ rest))
        (⟨kind, String.ofList lexeme, 1 + (before ++ gap).count '\n',
          ⟨byteLength (before ++ gap), byteLength (before ++ gap ++ lexeme)⟩⟩ :: tokens)

end Pixelwise.Token
