/-
Source text as reports show it — its lines, and the columns that its
characters take.

The lines of a report end at every character that ends a line of text, not
at line feeds alone, and keep it.  Main statement: `flatten_lines`, that the
lines are the text.
-/

namespace Pixelwise.Report

/-- The characters that end a line on their own. -/
def endsLine (c : Char) : Bool :=
  c = '\n' || c = '\r' || c = '\x0b' || c = '\x0c' || c = '\u0085' || c = '\u2028' || c = '\u2029'

/-- The characters that show as blank space. -/
def isSpace (c : Char) : Bool :=
  (9 ≤ c.toNat && c.toNat ≤ 13) || c = ' ' || c = '\u0085' || c = '\u00a0' || c = '\u1680' ||
    (0x2000 ≤ c.toNat && c.toNat ≤ 0x200a) || c = '\u2028' || c = '\u2029' || c = '\u202f' ||
    c = '\u205f' || c = '\u3000'

/-- Put a character in front of the first line. -/
def prepend (c : Char) : List (List Char) → List (List Char)
  | [] => [[c]]
  | line :: rest => (c :: line) :: rest

/-- The lines of a text, each with the characters that end it. -/
def lines : List Char → List (List Char)
  | [] => []
  | '\r' :: '\n' :: cs => ['\r', '\n'] :: lines cs
  | c :: cs => if endsLine c then [c] :: lines cs else prepend c (lines cs)

theorem flatten_prepend (c : Char) (ls : List (List Char)) :
    (prepend c ls).flatten = c :: ls.flatten := by
  cases ls <;> rfl

theorem flatten_lines (cs : List Char) : (lines cs).flatten = cs := by
  fun_induction lines cs with
  | case1 => rfl
  | case2 cs ih => simp [ih]
  | case3 c cs _ _ ih => simp [ih]
  | case4 c cs _ _ ih => simp [flatten_prepend, ih]

/-- A place in a text: the number of its line, from one, the characters
before it on that line, and the line. -/
structure Spot where
  line : Nat
  column : Nat
  text : List Char

/-- The place of a character by its offset, where `line` is the number of
the first line given; the last line has all places after its end. -/
def locate (line offset : Nat) : List (List Char) → Option Spot
  | [] => none
  | [last] => some ⟨line, offset, last⟩
  | l :: rest => if offset < l.length then some ⟨line, offset, l⟩
    else locate (line + 1) (offset - l.length) rest

/-- How many columns a character takes when `place` others stand before it
on its line: a tab goes to the next multiple of four, and all others take
one. -/
def width (c : Char) (place : Nat) : Nat :=
  if c = '\t' then 4 - place % 4 else 1

/-- The places of a line from `place` on, `count` in all, each with how many
columns it takes; places past the end of the line take one. -/
def placesFrom (place : Nat) : (count : Nat) → List Char → List (Nat × Nat)
  | 0, _ => []
  | count + 1, [] => (place, 1) :: placesFrom (place + 1) count []
  | count + 1, c :: cs => (place, width c place) :: placesFrom (place + 1) count cs

/-- A line without the blank space at its end. -/
def trimRight (line : List Char) : List Char :=
  (line.reverse.dropWhile isSpace).reverse

end Pixelwise.Report
