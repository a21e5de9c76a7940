/-
Reports — errors as text for a reader, with the source that they are about.

A report on a diagnostic has a heading, the place, the source line, an arrow
from the token to the message, and advice.  It takes the bytes of the token
for the numbers of its first and last character, so a place after
characters of several bytes is shown further right.  Of a token that would
end past its line the place is given but no source line, and one that lies
past the end of the text has a heading only.

A report is made of pieces, each drawn in one colour; without colour their
texts alone are written.
-/
import Pixelwise.Report.Text
import Pixelwise.Engine.Basic

namespace Pixelwise.Report

/-- What the pieces of a report are for, which settles their colours. -/
inductive Tint where
  | heading
  | frame
  | margin
  | source
  | label
  | help
deriving DecidableEq, Repr

/-- The number of a colour on a terminal. -/
def Tint.code : Tint → String
  | heading => "31"
  | frame => "38;5;246"
  | margin => "38;5;240"
  | source => "38;5;249"
  | label => "38;5;155"
  | help => "38;5;115"

/-- Text drawn in one colour, or in that of the terminal. -/
structure Piece where
  tint : Option Tint
  text : String
deriving DecidableEq, Repr

/-- A piece as it is sent to a terminal. -/
def Piece.write (colour : Bool) (piece : Piece) : String :=
  match piece.tint with
  | some tint =>
    if colour then "\x1b[" ++ tint.code ++ "m" ++ piece.text ++ "\x1b[0m" else piece.text
  | none => piece.text

/-- A piece in the colour of the terminal. -/
def plain (text : String) : Piece := ⟨none, text⟩

/-- A piece in a colour. -/
def tinted (tint : Tint) (text : String) : Piece := ⟨some tint, text⟩

/-- A run of blanks. -/
def blanks (n : Nat) : String :=
  String.ofList (List.replicate n ' ')

/-! ## The rows under a source line -/

/-- A token on its line: its places from `start` to before `stop`. -/
structure Mark where
  /-- The line as it is shown, without the blank space at its end. -/
  text : List Char
  start : Nat
  stop : Nat

namespace Mark

/-- The place from which the arrow goes. -/
def middle (m : Mark) : Nat :=
  (m.start + m.stop) / 2

/-- Whether a place belongs to the token. -/
def covers (m : Mark) (place : Nat) : Bool :=
  m.start ≤ place && place < m.stop

/-- A row under the line, up to two places after the token: each place is
drawn as its own character and one that fills the rest of its columns. -/
def row (m : Mark) (draw : Nat → Char × Char) : List Char :=
  (placesFrom 0 (m.stop + 2) m.text).flatMap fun p =>
    (draw p.1).1 :: List.replicate (p.2 - 1) (draw p.1).2

/-- The row that underlines the token. -/
def underline (m : Mark) : List Char :=
  m.row fun place =>
    if place = m.middle then if m.covers place then ('┬', '─') else ('│', ' ')
    else if m.covers place then ('─', '─') else (' ', ' ')

/-- The row with the arrow. -/
def arrow (m : Mark) : List Char :=
  m.row fun place =>
    if place = m.middle then ('╰', '─')
    else if m.middle < place then ('─', '─') else (' ', ' ')

/-- The source line. -/
def source (m : Mark) : List Piece :=
  m.text.zipIdx.flatMap fun p =>
    let tint := if m.covers p.2 then Tint.label else Tint.source
    if isSpace p.1 then List.replicate (width p.1 p.2) (tinted tint " ")
    else [tinted tint p.1.toString]

/-- The drawn characters of a row; blanks have no colour. -/
def drawn (row : List Char) : List Piece :=
  row.map fun c => if c = ' ' then plain " " else tinted .label c.toString

end Mark

/-! ## Reports -/

/-- What stands before the rows of a line that is not a source line. -/
def margin (number : String) : List Piece :=
  [plain " ", tinted .margin (blanks (number.length + 1) ++ "│"), plain " "]

/-- The source line with the rows under it, or an empty row when there is
nothing to mark on it. -/
def markedRows (number : String) (mark : Option Mark) (message : String) : List (List Piece) :=
  match mark with
  | none => [margin number]
  | some m =>
    [[plain " ", tinted .frame (number ++ " │"), plain " "] ++ m.source,
      margin number ++ Mark.drawn m.underline,
      margin number ++ Mark.drawn m.arrow ++ [plain (" " ++ message)]]

/-- The rows under a heading: the place by line and column, the mark with
the message, and the advice. -/
def snippet (line column : Nat) (mark : Option Mark) (message : String) (help : List String) :
    List (List Piece) :=
  let number := toString line
  [[plain (blanks (number.length + 2)), tinted .frame "╭", tinted .frame "─", tinted .frame "[",
      plain (" <program>:" ++ number ++ ":" ++ toString column ++ " "), tinted .frame "]"],
    [plain (blanks (number.length + 2)), tinted .frame "│"]] ++
  markedRows number mark message ++
  help.flatMap (fun text =>
    [margin number, margin number ++ [tinted .help "Help", plain (": " ++ text)]]) ++
  [[tinted .frame (String.ofList (List.replicate (number.length + 2) '─') ++ "╯")]]

/-- The place of a span in a text, if the text reaches that far. -/
def placeOf (source : List Char) (span : Span) : Option Spot :=
  if source.length < span.start ∨ (span.start < span.stop ∧ source.length < span.stop - 1) then
    none
  else locate 1 span.start (lines source)

/-- The mark of a token of `size` characters at a place, if the token ends
on the line. -/
def Spot.mark? (spot : Spot) (size : Nat) : Option Mark :=
  if spot.column + size ≤ spot.text.length then
    some ⟨trimRight spot.text, spot.column, spot.column + size⟩
  else none

/-- The rows of the report on a diagnostic. -/
def ofDiagnostic (source : String) (d : Diagnostic) : List (List Piece) :=
  let heading := [tinted .heading ("[" ++ d.code ++ "] Error:"),
    plain (" [line " ++ toString d.line ++ "] " ++ d.message)]
  match placeOf source.toList d.span with
  | none => [heading]
  | some spot =>
    heading :: snippet spot.line (spot.column + 1) (spot.mark? (d.span.stop - d.span.start))
      d.message d.help

/-- The rows of the report on an error. -/
def ofError : Error → List (List Piece)
  | .compilation source diagnostics => diagnostics.flatMap (ofDiagnostic source)
  | e => [[plain e.message]]

/-- A report as text, with or without colour. -/
def render (colour : Bool) (e : Error) : String :=
  String.join ((ofError e).map fun row => String.join (row.map (Piece.write colour)) ++ "\n")

end Pixelwise.Report
