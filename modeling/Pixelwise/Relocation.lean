/-
Relocation — tokens and problems as they stand elsewhere in a text.

A token keeps its kind and its lexeme wherever it stands; only its line and
its span are of the place.  So a relocation says of lines and of spans what
becomes of them.

Main statement: `scanFrom_shift`, that a text which begins elsewhere has the
same tokens, shifted.
-/
import Pixelwise.Diagnostic
import Pixelwise.Token.Scan

namespace Pixelwise

/-- What becomes of the lines and the spans of a text. -/
structure Relocation where
  line : Nat → Nat
  span : Span → Span

/-- Everything stands some bytes and some lines further on. -/
def Relocation.shift (bytes lines : Nat) : Relocation where
  line := (· + lines)
  span := fun span => ⟨span.start + bytes, span.stop + bytes⟩

/-- A token in its new place. -/
def Token.relocate (m : Relocation) (t : Token) : Token :=
  { t with line := m.line t.line, span := m.span t.span }

/-- A problem in its new place. -/
def Diagnostic.relocate (m : Relocation) (d : Diagnostic) : Diagnostic :=
  { d with line := m.line d.line, span := m.span d.span }

namespace Token

@[simp] theorem kind_relocate (m : Relocation) (t : Token) : (t.relocate m).kind = t.kind := rfl

@[simp] theorem lexeme_relocate (m : Relocation) (t : Token) :
    (t.relocate m).lexeme = t.lexeme := rfl

/-- Where a text begins says where its tokens stand, and nothing else of
them. -/
theorem scanFrom_shift (bytes lines offset line : Nat) (text : List Char) :
    scanFrom (offset + bytes) (line + lines) text =
      (scanFrom offset line text).map (relocate (.shift bytes lines)) := by
  fun_induction scanFrom offset line text with
  | case1 => simp [scanFrom]
  | case2 offset line cs ih =>
      rw [scanFrom, if_pos rfl, Nat.add_right_comm, Nat.add_right_comm line, ih]
  | case3 offset line c cs hc hblank ih =>
      rw [scanFrom, if_neg hc, if_pos hblank, Nat.add_right_comm, ih]
  | case4 offset line cs hc hblank ih =>
      rw [scanFrom, if_neg hc, if_neg hblank, if_pos rfl, ← ih]
      simp only [Nat.add_right_comm]
  | case5 offset line c cs hc hblank hcomment ih =>
      rw [scanFrom, if_neg hc, if_neg hblank, if_neg hcomment, Nat.add_right_comm, ih]
      rfl

end Token

end Pixelwise
