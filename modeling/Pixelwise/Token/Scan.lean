/-
The scanner — a text becomes its list of tokens.

At each place blanks, line feeds and `#` comments are passed over; then the
longest token of the language is taken, or a single character when none
starts there.  `munch` takes one token off a text and `munch_shorter` says
that what remains is shorter, which is what ends the scan.
-/
import Pixelwise.Token.Basic

namespace Pixelwise.Token

/-! ## Character classes -/

/-- Blanks separate tokens and are passed over. -/
def isBlank (c : Char) : Bool :=
  c = ' ' || c = '\t' || c = '\r'

/-- A name opens with an ASCII letter, an underscore or an apostrophe, so
that primed names such as x' are names. -/
def isNameStart (c : Char) : Bool :=
  c.isAlpha || c = '_' || c = '\''

/-- A name goes on with the characters that open one, and with digits. -/
def isNamePart (c : Char) : Bool :=
  isNameStart c || c.isDigit

/-! ## One token -/

/-- A token taken off the front of a text, and the text after it. -/
structure Munch where
  kind : Kind
  lexeme : List Char
  rest : List Char

/-- The fraction of a number, a point and at least one digit, and the text
after it; no characters when the text opens with no fraction. -/
def fraction : List Char → List Char × List Char
  | '.' :: d :: cs =>
    if d.isDigit then ('.' :: d :: cs.takeWhile Char.isDigit, cs.dropWhile Char.isDigit)
    else ([], '.' :: d :: cs)
  | cs => ([], cs)

/-- The operator of two characters that `c` opens when `=` follows it. -/
def withEqual? (c : Char) : Option Kind :=
  match c with
  | '!' => some .bangEqual
  | '=' => some .equalEqual
  | '>' => some .greaterEqual
  | '<' => some .lessEqual
  | _ => none

/-- The token that `c` is on its own. -/
def alone (c : Char) : Kind :=
  match c with
  | '(' => .leftParen
  | ')' => .rightParen
  | ';' => .semicolon
  | ',' => .comma
  | '+' => .plus
  | '-' => .minus
  | '*' => .star
  | '/' => .slash
  | '^' => .caret
  | '%' => .percent
  | '&' => .ampersand
  | '|' => .pipe
  | '!' => .bang
  | '=' => .equal
  | '>' => .greater
  | '<' => .less
  | _ => .unexpected c

/-- An operator of one or two characters, or one unexpected character. -/
def munchSymbol (c : Char) (cs : List Char) : Munch :=
  match withEqual? c, cs with
  | some kind, '=' :: rest => ⟨kind, [c, '='], rest⟩
  | _, _ => ⟨alone c, [c], cs⟩

/-- The longest token at the front of `c :: cs`, where `c` is no blank, no
line feed and no comment sign. -/
def munch (c : Char) (cs : List Char) : Munch :=
  if isNameStart c then
    ⟨.identifier, c :: cs.takeWhile isNamePart, cs.dropWhile isNamePart⟩
  else if c.isDigit then
    ⟨.number, c :: cs.takeWhile Char.isDigit ++ (fraction (cs.dropWhile Char.isDigit)).1,
      (fraction (cs.dropWhile Char.isDigit)).2⟩
  else if (fraction (c :: cs)).1 = [] then munchSymbol c cs
  else ⟨.number, (fraction (c :: cs)).1, (fraction (c :: cs)).2⟩

/-! ## What remains is shorter -/

theorem length_dropWhile_le (p : Char → Bool) (cs : List Char) :
    (cs.dropWhile p).length ≤ cs.length :=
  (List.dropWhile_sublist p).length_le

theorem fraction_append (cs : List Char) : (fraction cs).1 ++ (fraction cs).2 = cs := by
  unfold fraction
  split
  · split <;> simp
  · simp

theorem munchSymbol_append (c : Char) (cs : List Char) :
    (munchSymbol c cs).lexeme ++ (munchSymbol c cs).rest = c :: cs := by
  unfold munchSymbol
  split <;> simp

/-- A token and what remains after it are the text. -/
theorem munch_append (c : Char) (cs : List Char) :
    (munch c cs).lexeme ++ (munch c cs).rest = c :: cs := by
  unfold munch
  split
  · simp
  · split
    · simp [fraction_append]
    · split
      · exact munchSymbol_append c cs
      · exact fraction_append (c :: cs)

theorem munchSymbol_lexeme_ne_nil (c : Char) (cs : List Char) :
    (munchSymbol c cs).lexeme ≠ [] := by
  unfold munchSymbol
  split <;> simp

/-- A token holds at least one character. -/
theorem munch_lexeme_ne_nil (c : Char) (cs : List Char) : (munch c cs).lexeme ≠ [] := by
  unfold munch
  split
  · simp
  · split
    · simp
    · split
      · exact munchSymbol_lexeme_ne_nil c cs
      · assumption

theorem munch_shorter (c : Char) (cs : List Char) : (munch c cs).rest.length ≤ cs.length := by
  have h := congrArg List.length (munch_append c cs)
  have := List.length_pos_iff.mpr (munch_lexeme_ne_nil c cs)
  simp only [List.length_append, List.length_cons] at h
  omega

/-! ## The whole text -/

/-- The number of bytes that characters take. -/
def byteLength : List Char → Nat
  | [] => 0
  | c :: cs => c.utf8Size + byteLength cs

/-- The tokens of a text whose first character stands at byte `offset` of
line `line`. -/
def scanFrom (offset line : Nat) (text : List Char) : List Token :=
  match text with
  | [] => []
  | c :: cs =>
    if c = '\n' then scanFrom (offset + 1) (line + 1) cs
    else if isBlank c then scanFrom (offset + 1) line cs
    else if c = '#' then
      scanFrom (offset + 1 + byteLength (cs.takeWhile (· ≠ '\n'))) line
        (cs.dropWhile (· ≠ '\n'))
    else
      ⟨(munch c cs).kind, String.ofList (munch c cs).lexeme, line,
          ⟨offset, offset + byteLength (munch c cs).lexeme⟩⟩ ::
        scanFrom (offset + byteLength (munch c cs).lexeme) line (munch c cs).rest
termination_by text.length
decreasing_by
  · simp
  · simp
  · exact Nat.lt_succ_of_le (length_dropWhile_le _ cs)
  · exact Nat.lt_succ_of_le (munch_shorter c cs)

/-- The tokens of a source text, in order. -/
def scan (source : String) : List Token :=
  scanFrom 0 1 source.toList

/-- The token that follows all others of a source text: it is empty, stands
at the end of the text, and its line is one more than the line feeds. -/
def endOf (source : String) : Token :=
  ⟨.endOfInput, "", 1 + source.toList.count '\n', ⟨source.utf8ByteSize, source.utf8ByteSize⟩⟩

end Pixelwise.Token
