/-
Joining — the tokens of two texts with a line feed between them.

A line feed ends whatever token or comment stands before it, so the scanner
comes to the second text as it begins, only further on.

Main statement: `scan_join`.
-/
import Pixelwise.Relocation
import Pixelwise.Proofs.Spans

namespace Pixelwise.Token

/-! ## Characters that end a token -/

/-- The character goes on no token, whatever stands before it. -/
structure Separates (x : Char) : Prop where
  name : isNamePart x = false
  digit : x.isDigit = false
  point : x ≠ '.'
  sign : x ≠ '='

theorem separates_newline : Separates '\n' := by
  constructor <;> decide

section

variable {p : Char → Bool} {x : Char} {ds : List Char}

theorem takeWhile_before (hx : p x = false) (cs : List Char) :
    (cs ++ x :: ds).takeWhile p = cs.takeWhile p := by
  induction cs with
  | nil => exact List.takeWhile_cons_of_neg (by simp [hx])
  | cons c cs ih => simp only [List.cons_append, List.takeWhile_cons, ih]

theorem dropWhile_before (hx : p x = false) (cs : List Char) :
    (cs ++ x :: ds).dropWhile p = cs.dropWhile p ++ x :: ds := by
  induction cs with
  | nil => exact List.dropWhile_cons_of_neg (by simp [hx])
  | cons c cs ih =>
      simp only [List.cons_append, List.dropWhile_cons, ih]
      split <;> rfl

theorem fraction_before (hx : Separates x) (cs : List Char) :
    fraction (cs ++ x :: ds) = ((fraction cs).1, (fraction cs).2 ++ x :: ds) := by
  cases cs with
  | nil =>
      rw [List.nil_append, fraction.eq_def]
      split
      · rename_i h
        exact absurd (List.cons.inj h).1 hx.point
      · rfl
  | cons c cs =>
      by_cases hc : c = '.'
      · subst hc
        cases cs with
        | nil => simp [fraction, hx.digit]
        | cons d cs =>
            simp only [List.cons_append, fraction, takeWhile_before hx.digit,
              dropWhile_before hx.digit]
            split <;> rfl
      · simp [fraction, hc]

theorem munchSymbol_before (hx : Separates x) (c : Char) (cs : List Char) :
    munchSymbol c (cs ++ x :: ds) =
      ⟨(munchSymbol c cs).kind, (munchSymbol c cs).lexeme,
        (munchSymbol c cs).rest ++ x :: ds⟩ := by
  cases cs with
  | nil =>
      rw [List.nil_append, munchSymbol.eq_def]
      split
      · rename_i h
        exact absurd (List.cons.inj h).1 hx.sign
      · simp [munchSymbol]
  | cons d cs =>
      by_cases hd : d = '='
      · subst hd
        cases h : withEqual? c <;> simp [munchSymbol, h]
      · simp [munchSymbol, hd]

/-- The longest token ends before a character that goes on none. -/
theorem munch_before (hx : Separates x) (c : Char) (cs : List Char) :
    munch c (cs ++ x :: ds) =
      ⟨(munch c cs).kind, (munch c cs).lexeme, (munch c cs).rest ++ x :: ds⟩ := by
  have hfraction : fraction (c :: (cs ++ x :: ds)) =
      ((fraction (c :: cs)).1, (fraction (c :: cs)).2 ++ x :: ds) := fraction_before hx (c :: cs)
  simp only [munch, takeWhile_before hx.name, dropWhile_before hx.name,
    takeWhile_before hx.digit, dropWhile_before hx.digit, fraction_before hx, hfraction]
  split
  · rfl
  · split
    · rfl
    · split
      · exact munchSymbol_before hx c cs
      · rfl

end

/-! ## Line feeds -/

theorem notMem_takeWhile {p : Char → Bool} {x : Char} (hx : p x = false) (cs : List Char) :
    x ∉ cs.takeWhile p := by
  intro h
  have hp : p x = true := List.all_eq_true.mp List.all_takeWhile x h
  rw [hx] at hp
  cases hp

theorem newline_notMem_fraction (cs : List Char) : '\n' ∉ (fraction cs).1 := by
  unfold fraction
  split
  · rename_i d cs
    split
    · rename_i hd
      have hfirst : '\n' ≠ d := by
        rintro rfl
        cases hd
      simp [hfirst, notMem_takeWhile (show Char.isDigit '\n' = false by decide)]
    · simp
  · simp

/-- No token goes on over a line feed. -/
theorem newline_notMem_lexeme {c : Char} (hc : c ≠ '\n') (cs : List Char) :
    '\n' ∉ (munch c cs).lexeme := by
  unfold munch
  split
  · simp [hc.symm, notMem_takeWhile (show isNamePart '\n' = false by decide)]
  · split
    · simp [hc.symm, notMem_takeWhile (show Char.isDigit '\n' = false by decide),
        newline_notMem_fraction]
    · split
      · unfold munchSymbol
        split <;> simp [hc.symm]
      · exact newline_notMem_fraction _

/-! ## Whole texts -/

/-- The tokens of the first text, and behind them those of the second, which
begins on a line of its own. -/
theorem scanFrom_join (offset line : Nat) (cs ds : List Char) :
    scanFrom offset line (cs ++ '\n' :: ds) =
      scanFrom offset line cs ++
        scanFrom (offset + byteLength cs + 1) (line + cs.count '\n' + 1) ds := by
  fun_induction scanFrom offset line cs with
  | case1 offset line =>
      rw [List.nil_append, scanFrom, if_pos rfl]
      rfl
  | case2 offset line cs ih =>
      rw [List.cons_append, scanFrom, if_pos rfl, ih, List.count_cons_self]
      have hsize : ('\n').utf8Size = 1 := by decide
      congr 2
      · simp only [byteLength]
        omega
      · omega
  | case3 offset line c cs hc hblank ih =>
      rw [List.cons_append, scanFrom, if_neg hc, if_pos hblank, ih, List.count_cons_of_ne hc]
      have hsize : c.utf8Size = 1 := utf8Size_of_isBlank hblank
      congr 2
      simp only [byteLength]
      omega
  | case4 offset line cs hc hblank ih =>
      have hx : (fun c : Char => decide (c ≠ '\n')) '\n' = false := by decide
      rw [List.cons_append, scanFrom, if_neg hc, if_neg hblank, if_pos rfl, takeWhile_before hx,
        dropWhile_before hx, ih, List.count_cons_of_ne hc]
      have hsize : ('#').utf8Size = 1 := by decide
      have hbytes : byteLength (cs.takeWhile (· ≠ '\n')) + byteLength (cs.dropWhile (· ≠ '\n')) =
          byteLength cs := by
        rw [← byteLength_append, List.takeWhile_append_dropWhile]
      have hlines : cs.count '\n' = (cs.dropWhile (· ≠ '\n')).count '\n' := by
        conv => lhs; rw [← List.takeWhile_append_dropWhile (p := (· ≠ '\n')) (l := cs)]
        rw [List.count_append, List.count_eq_zero_of_not_mem (notMem_takeWhile hx cs),
          Nat.zero_add]
      rw [hlines]
      congr 2
      simp only [byteLength]
      omega
  | case5 offset line c cs hc hblank hcomment ih =>
      rw [List.cons_append, scanFrom, if_neg hc, if_neg hblank, if_neg hcomment,
        munch_before separates_newline, ih]
      have htext := munch_append c cs
      have hbytes : byteLength (munch c cs).lexeme + byteLength (munch c cs).rest =
          byteLength (c :: cs) := by
        rw [← byteLength_append, htext]
      have hlines : (c :: cs).count '\n' = (munch c cs).rest.count '\n' := by
        rw [← htext, List.count_append,
          List.count_eq_zero_of_not_mem (newline_notMem_lexeme hc cs), Nat.zero_add]
      rw [hlines, ← hbytes, List.cons_append, ← Nat.add_assoc]

/-- How much further on the text behind a text and a line feed stands. -/
def behind (source : String) : Relocation :=
  .shift (source.utf8ByteSize + 1) (source.toList.count '\n' + 1)

/-- The tokens of two texts with a line feed between them are those of the
one and of the other, and nothing else. -/
theorem scan_join (first second : String) :
    scan (first ++ "\n" ++ second) =
      scan first ++ (scan second).map (relocate (behind first)) := by
  have htext : (first ++ "\n" ++ second).toList = first.toList ++ '\n' :: second.toList := by
    simp
  rw [scan, htext, scanFrom_join, scan, scan, behind, ← scanFrom_shift, utf8ByteSize_eq]
  rfl

theorem endOf_join (first second : String) :
    endOf (first ++ "\n" ++ second) = (endOf second).relocate (behind first) := by
  have htext : (first ++ "\n" ++ second).toList = first.toList ++ '\n' :: second.toList := by
    simp
  have hsize : ("\n").utf8ByteSize = 1 := by decide
  simp only [endOf, relocate, behind, Relocation.shift, htext, String.utf8ByteSize_append, hsize,
    List.count_append, List.count_cons_self, Token.mk.injEq, Span.mk.injEq, true_and]
  omega

end Pixelwise.Token
