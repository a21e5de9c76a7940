/-
Pointing — where a report points, and where its token stands.

A token has its place from the scanner, which counts bytes and begins a line
behind every line feed.  A report takes the number of bytes for a number of
characters, and ends its lines at every character that ends a line of text,
but never begins one behind the last character.  Both places are found here
by going through the text, one character at a time (`walk`, `step`).

Main statement: `place_shown_iff`, that a report shows the line and the column
of its token exactly if nothing before the token tells the two ways of
counting apart, and the text is long enough for the number of bytes.
-/
import Mathlib.Data.List.Basic
import Pixelwise.Report.Render
import Pixelwise.Proofs.Blaming
import Pixelwise.Proofs.Standing

namespace Pixelwise

namespace Report

open Token

/-! ## The place of an offset, by the lines of a report -/

/-- The character ends a line, and the line of `cs` begins behind it. -/
def closes (c : Char) (cs : List Char) : Bool :=
  endsLine c && !cs.isEmpty && !(c = '\r' && cs.head? = some '\n')

/-- The line and the column of an offset, found by going through a text that
begins at a place; the last line has all places behind the end of the text. -/
def walk (line column : Nat) : (offset : Nat) → List Char → Nat × Nat
  | 0, _ => (line, column)
  | offset + 1, [] => (line, column + (offset + 1))
  | offset + 1, c :: cs =>
    if closes c cs then walk (line + 1) 0 offset cs else walk line (column + 1) offset cs

theorem walk_zero (line column : Nat) (text : List Char) :
    walk line column 0 text = (line, column) := by
  rw [walk.eq_def]

theorem walk_nil (line column offset : Nat) :
    walk line column offset [] = (line, column + offset) := by
  cases offset <;> rfl

section

variable {c : Char} {cs : List Char}

theorem walk_of_closes (h : closes c cs = true) (line column offset : Nat) :
    walk line column (offset + 1) (c :: cs) = walk (line + 1) 0 offset cs := by
  rw [walk, if_pos h]

theorem walk_of_not_closes (h : closes c cs = false) (line column offset : Nat) :
    walk line column (offset + 1) (c :: cs) = walk line (column + 1) offset cs := by
  rw [walk, if_neg (by simp [h])]

theorem closes_of_ends (hpair : ∀ rest, c = '\r' → cs = '\n' :: rest → False)
    (hc : endsLine c = true) (hcs : cs ≠ []) : closes c cs = true := by
  have hhead : ¬(c = '\r' ∧ cs.head? = some '\n') := by
    rintro ⟨hc, hhead⟩
    obtain ⟨rest, hrest⟩ := List.head?_eq_some_iff.mp hhead
    exact hpair rest hc hrest
  rw [Decidable.not_and_iff_not_or_not] at hhead
  simpa [closes, hc, hcs] using hhead

end

/-- The number of the line, and of the characters before the spot on it. -/
def Spot.place (spot : Spot) : Nat × Nat :=
  (spot.line, spot.column)

/-- Lines, where the first was begun with the characters `done`. -/
def begun (done : List Char) : List (List Char) → List (List Char)
  | [] => [done]
  | l :: rest => (done ++ l) :: rest

theorem begun_prepend (done : List Char) (c : Char) (ls : List (List Char)) :
    begun done (prepend c ls) = begun (done ++ [c]) ls := by
  cases ls <;> simp [begun, prepend]

theorem begun_nil {ls : List (List Char)} (h : ls ≠ []) : begun [] ls = ls := by
  cases ls with
  | nil => exact absurd rfl h
  | cons l rest => rfl

theorem lines_ne_nil {text : List Char} (h : text ≠ []) : lines text ≠ [] := by
  intro hnil
  have hflat := flatten_lines text
  rw [hnil] at hflat
  exact h hflat.symm

theorem locate_of_lt {line offset : Nat} {l : List Char} (rest : List (List Char))
    (h : offset < l.length) :
    (locate line offset (l :: rest)).map Spot.place = some (line, offset) := by
  cases rest with
  | nil => rfl
  | cons l' rest =>
      rw [locate.eq_3 _ _ _ _ (by simp), if_pos h]
      rfl

theorem locate_behind {line offset : Nat} (l : List Char) {rest : List (List Char)}
    (h : rest ≠ []) :
    locate line (l.length + offset) (l :: rest) = locate (line + 1) offset rest := by
  rw [locate.eq_3 _ _ _ _ (by simpa using h), if_neg (by omega), Nat.add_sub_cancel_left]

/-- A place behind a line that is ended is a place from the next line on. -/
theorem locate_closed {line offset : Nat} {cs : List Char} (hcs : cs ≠ [])
    (h : (locate (line + 1) offset (begun [] (lines cs))).map Spot.place =
      some (walk (line + 1) 0 offset cs)) (done closing : List Char) :
    (locate line (done.length + (closing.length + offset)) (begun done (closing :: lines cs))).map
      Spot.place = some (walk (line + 1) 0 offset cs) := by
  have hlines := lines_ne_nil hcs
  rw [begun_nil hlines] at h
  rw [begun, ← Nat.add_assoc, ← List.length_append, locate_behind _ hlines, h]

theorem locate_begun (line offset : Nat) (done text : List Char) :
    (locate line (done.length + offset) (begun done (lines text))).map Spot.place =
      some (walk line done.length offset text) := by
  fun_induction lines text generalizing line offset done with
  | case1 =>
      rw [walk_nil]
      rfl
  | case2 cs ih =>
      rcases offset with _ | _ | offset
      · rw [walk_zero]
        exact locate_of_lt _ (by simp)
      · rw [walk_of_not_closes (by simp [closes]), walk_zero]
        exact locate_of_lt _ (by simp)
      · rw [walk_of_not_closes (by simp [closes])]
        by_cases hcs : cs = []
        · subst hcs
          rw [walk_of_not_closes (by simp [closes]), walk_nil]
          show some (line, done.length + (offset + 2)) = _
          congr 2
          omega
        · rw [walk_of_closes (closes_of_ends (by simp) rfl hcs), Nat.add_comm offset 2]
          exact locate_closed hcs (by simpa using ih (line + 1) offset []) done ['\r', '\n']
  | case3 c cs hpair hc ih =>
      rcases offset with _ | offset
      · rw [walk_zero]
        exact locate_of_lt _ (by simp)
      · by_cases hcs : cs = []
        · subst hcs
          rw [walk_of_not_closes (by simp [closes]), walk_nil]
          show some (line, done.length + (offset + 1)) = _
          congr 2
          omega
        · rw [walk_of_closes (closes_of_ends hpair hc hcs), Nat.add_comm offset 1]
          exact locate_closed hcs (by simpa using ih (line + 1) offset []) done [c]
  | case4 c cs _ hc ih =>
      rw [begun_prepend]
      rcases offset with _ | offset
      · rw [walk_zero]
        cases lines cs <;> exact locate_of_lt _ (by simp)
      · have hih := ih line offset (done ++ [c])
        rw [List.length_append, List.length_singleton, Nat.add_assoc, Nat.add_comm 1] at hih
        rw [walk_of_not_closes (by simp [closes, hc]), hih]

/-- The place that the lines give is the one that the characters give. -/
theorem locate_eq_walk (line offset : Nat) {text : List Char} (h : text ≠ []) :
    (locate line offset (lines text)).map Spot.place = some (walk line 0 offset text) := by
  have hbegun := locate_begun line offset [] text
  rwa [begun_nil (lines_ne_nil h), List.length_nil, Nat.zero_add] at hbegun

/-! ## The place of a token, by line feeds -/

/-- The place behind one more character, where line feeds alone end lines. -/
def step (place : Nat × Nat) (c : Char) : Nat × Nat :=
  if c = '\n' then (place.1 + 1, 0) else (place.1, place.2 + 1)

/-- The number of characters behind the last line feed. -/
def columnBehind (before : List Char) : Nat :=
  (before.reverse.takeWhile (· ≠ '\n')).length

theorem foldl_step (before : List Char) :
    before.foldl step (1, 0) = (1 + before.count '\n', columnBehind before) := by
  obtain ⟨cs, rfl⟩ : ∃ cs : List Char, before = cs.reverse := ⟨before.reverse, by simp⟩
  induction cs with
  | nil => rfl
  | cons c cs ih =>
      rw [List.reverse_cons, List.foldl_append, ih]
      by_cases hc : c = '\n'
      · simp [step, columnBehind, hc, Nat.add_assoc]
      · simp [step, columnBehind, hc]

/-! ## Where the places agree -/

/-- Up to the text `after`, a report begins a line behind each line feed and
nowhere else. -/
def straight (after : List Char) : List Char → Bool
  | [] => true
  | c :: cs => (closes c (cs ++ after) == decide (c = '\n')) && straight after cs

theorem walk_onward (line column offset : Nat) (text : List Char) :
    line < (walk line column offset text).1 ∨
      walk line column offset text = (line, column + offset) := by
  fun_induction walk line column offset text with
  | case1 => exact Or.inr rfl
  | case2 => exact Or.inr rfl
  | case3 line column offset c cs _ ih =>
      rcases ih with ih | ih
      · exact Or.inl (Nat.lt_of_succ_lt ih)
      · exact Or.inl (by simp [ih])
  | case4 line column offset c cs _ ih =>
      rw [Nat.add_right_comm] at ih
      exact ih

/-- A line feed ends a line, unless it ends the text. -/
theorem closes_newline (cs : List Char) : closes '\n' cs = !cs.isEmpty := by
  simp [closes, endsLine]

/-- A report that has begun one line more stays ahead. -/
theorem walk_ahead {line line' : Nat} (hline : line < line') (column column' extra : Nat)
    (before after : List Char) :
    Prod.lexLt (before.foldl step (line, column))
      (walk line' column' (before.length + extra) (before ++ after)) := by
  induction before generalizing line line' column column' with
  | nil =>
      refine Or.inl ?_
      rcases walk_onward line' column' (0 + extra) after with h | h
      · exact Nat.lt_trans hline h
      · rw [List.length_nil, List.nil_append, h]
        exact hline
  | cons c cs ih =>
      rw [List.length_cons, Nat.add_right_comm, List.cons_append, List.foldl_cons, step]
      cases hcloses : closes c (cs ++ after) with
      | true =>
          rw [walk_of_closes hcloses]
          split
          · exact ih (Nat.succ_lt_succ hline) 0 0
          · exact ih (Nat.lt_succ_of_lt hline) (column + 1) 0
      | false =>
          rw [walk_of_not_closes hcloses]
          split
          · rename_i hc
            subst hc
            rw [closes_newline] at hcloses
            obtain ⟨rfl, rfl⟩ : cs = [] ∧ after = [] := by simpa using hcloses
            rw [List.nil_append, walk_nil]
            rcases Nat.lt_or_eq_of_le (Nat.succ_le_of_lt hline) with h | h
            · exact Or.inl h
            · exact Or.inr ⟨h, by simp only [List.foldl_nil]; omega⟩
          · exact ih hline (column + 1) (column' + 1)

/-- The places agree exactly if the offset does, and the lines up to there. -/
theorem walk_eq_iff (line column extra : Nat) (before after : List Char) :
    walk line column (before.length + extra) (before ++ after) =
        before.foldl step (line, column) ↔
      extra = 0 ∧ straight after before = true := by
  induction before generalizing line column with
  | nil =>
      rw [List.length_nil, Nat.zero_add, List.nil_append, List.foldl_nil]
      constructor
      · intro h
        rcases walk_onward line column extra after with hlt | heq
        · rw [h] at hlt
          exact absurd hlt (Nat.lt_irrefl _)
        · rw [h, Prod.mk.injEq] at heq
          exact ⟨by omega, rfl⟩
      · rintro ⟨rfl, -⟩
        exact walk_zero ..
  | cons c cs ih =>
      rw [List.length_cons, Nat.add_right_comm, List.cons_append, List.foldl_cons, step, straight]
      cases hcloses : closes c (cs ++ after) with
      | true =>
          rw [walk_of_closes hcloses]
          by_cases hc : c = '\n'
          · simpa [hc] using ih (line + 1) 0
          · have hahead := walk_ahead (Nat.lt_succ_self line) (column + 1) 0 extra cs after
            rw [if_neg hc]
            refine iff_of_false (fun heq => ?_) (by simp [hc])
            rw [Nat.succ_eq_add_one, heq] at hahead
            rcases hahead with h | ⟨-, h⟩ <;> exact absurd h (Nat.lt_irrefl _)
      | false =>
          rw [walk_of_not_closes hcloses]
          by_cases hc : c = '\n'
          · subst hc
            rw [closes_newline] at hcloses
            obtain ⟨rfl, rfl⟩ : cs = [] ∧ after = [] := by simpa using hcloses
            refine iff_of_false (fun heq => ?_) (by simp)
            rw [List.nil_append, walk_nil, if_pos rfl, List.foldl_nil, Prod.mk.injEq] at heq
            omega
          · simpa [hc] using ih line (column + 1)

/-! ## What a report shows -/

/-- The row that gives a place. -/
def placeRow (line column : Nat) : List Piece :=
  [plain (blanks ((toString line).length + 2)), tinted .frame "╭", tinted .frame "─",
    tinted .frame "[", plain (" <program>:" ++ toString line ++ ":" ++ toString column ++ " "),
    tinted .frame "]"]

theorem toString_inj {m n : Nat} (h : toString m = toString n) : m = n := by
  rw [Nat.toString_eq_ofList_toDigits, Nat.toString_eq_ofList_toDigits, String.ofList_inj] at h
  rw [← Nat.ofDigitChars_ten_toDigits (n := m), h, Nat.ofDigitChars_ten_toDigits]

/-- Every place has a row of its own. -/
theorem placeRow_inj {line column line' column' : Nat} :
    placeRow line column = placeRow line' column' ↔ line = line' ∧ column = column' := by
  refine ⟨fun h => ?_, by rintro ⟨rfl, rfl⟩; rfl⟩
  have htext : " <program>:" ++ toString line ++ ":" ++ toString column ++ " " =
      " <program>:" ++ toString line' ++ ":" ++ toString column' ++ " " := by
    simp only [placeRow, plain, List.cons.injEq, Piece.mk.injEq] at h
    exact h.2.2.2.2.1.2
  have hchars : (toString line).toList ++ ':' :: ((toString column).toList ++ [' ']) =
      (toString line').toList ++ ':' :: ((toString column').toList ++ [' ']) := by
    simpa using congrArg String.toList htext
  have hcolon : ∀ n : Nat, ':' ∉ (toString n).toList := notMem_toString (by decide)
  have hrest : ':' ∉ (toString column).toList ++ [' '] := by
    simpa using hcolon column
  obtain ⟨hline, -, hcolumn⟩ :=
    (List.append_cons_inj_of_notMem (hcolon line) hrest).mp hchars
  refine ⟨toString_inj (String.toList_inj.mp hline), toString_inj (String.toList_inj.mp ?_)⟩
  exact List.append_cancel_right hcolumn

/-- The row under the heading gives the place of the span. -/
theorem ofDiagnostic_place (source : String) (d : Diagnostic) :
    (ofDiagnostic source d)[1]? =
      ((placeOf source.toList d.span).map Spot.place).map fun p => placeRow p.1 (p.2 + 1) := by
  rw [ofDiagnostic]
  cases placeOf source.toList d.span <;> rfl

theorem length_le_byteLength (cs : List Char) : cs.length ≤ byteLength cs := by
  induction cs with
  | nil => exact Nat.le_refl _
  | cons c cs ih =>
      have hc : 0 < c.utf8Size := Char.utf8Size_pos c
      rw [List.length_cons, byteLength]
      omega

theorem placeOf_eq_iff {span : Span} {before after : List Char}
    (hstart : span.start = byteLength before) (hne : before ++ after ≠ []) :
    (placeOf (before ++ after) span).map Spot.place = some (before.foldl step (1, 0)) ↔
      byteLength before = before.length ∧ span.stop ≤ (before ++ after).length + 1 ∧
        straight after before = true := by
  obtain ⟨extra, hextra⟩ := Nat.exists_eq_add_of_le (length_le_byteLength before)
  have hlength : before.length ≤ (before ++ after).length := by simp
  rw [placeOf]
  split
  · refine iff_of_false (by simp) fun h => ?_
    omega
  · rw [locate_eq_walk _ _ hne, hstart, hextra, Option.some.injEq, walk_eq_iff]
    constructor
    · rintro ⟨rfl, hstraight⟩
      exact ⟨rfl, by omega, hstraight⟩
    · rintro ⟨hbytes, -, hstraight⟩
      exact ⟨by omega, hstraight⟩

end Report

open Syntax Token Compiler Report

/-- There is nothing wrong with a text without characters. -/
theorem toList_ne_nil_of_mem {inputs : List String} {source : String} {d : Diagnostic}
    (h : d ∈ problems inputs source) : source.toList ≠ [] := by
  intro hnil
  have hscan : scan source = [] := by rw [scan, hnil, scanFrom]
  rw [problems_eq, Array.mem_toList_iff] at h
  rcases mem_finish_iff.mp h with hstray | ⟨s, hs, hne, -⟩
  · rw [hscan] at hstray
    cases hstray
  · have hsuffix := (hs.placed.suffix hne).1
    rw [hscan] at hsuffix
    exact hne (List.suffix_nil.mp hsuffix)

/-- A report shows the line of its diagnostic, and the column of the token on
that line, exactly if every character before the token takes one byte, the
lines before it end at line feeds alone, and the token does not reach further
in bytes than the text does in characters.  The line is at most one more than
there are line feeds. -/
theorem place_shown_iff {inputs : List String} {source : String} {d : Diagnostic}
    (h : d ∈ problems inputs source) :
    ∃ before after, source.toList = before ++ after ∧ d.span.start = byteLength before ∧
      d.line = 1 + before.count '\n' ∧ d.line ≤ 1 + source.toList.count '\n' ∧
      ((ofDiagnostic source d)[1]? = some (placeRow d.line (1 + columnBehind before)) ↔
        byteLength before = before.length ∧ d.span.stop ≤ source.length + 1 ∧
          straight after before = true) := by
  have hstands : ∃ t before after, d = at' d.problem t ∧
      Stands 0 1 source.toList before after t := by
    obtain ⟨t, ht, hd, -⟩ := blames_of_mem h
    rcases List.mem_append.mp ht with ht | ht
    · obtain ⟨before, after, hstands⟩ := stands_of_mem_scan ht
      exact ⟨t, before, after, hd, hstands⟩
    · rw [List.mem_singleton.mp ht] at hd
      exact ⟨_, _, _, hd, stands_endOf source⟩
  obtain ⟨t, before, after, hd, hstands⟩ := hstands
  have hstart : d.span.start = byteLength before := by
    rw [hd]
    exact hstands.start.trans (Nat.zero_add _)
  have hline : d.line = 1 + before.count '\n' := by
    rw [hd]
    exact hstands.line
  have hbound : d.line ≤ 1 + source.toList.count '\n' := by
    rw [hline, hstands.text, List.count_append]
    omega
  refine ⟨before, t.lexeme.toList ++ after, hstands.text, hstart, hline, hbound, ?_⟩
  have hplace := placeOf_eq_iff hstart (hstands.text ▸ toList_ne_nil_of_mem h)
  rw [← hstands.text, String.length_toList, foldl_step, ← hline] at hplace
  rw [← hplace, ofDiagnostic_place]
  cases (placeOf source.toList d.span).map Spot.place with
  | none => simp
  | some p =>
      rw [Option.map_some, Option.some.injEq, placeRow_inj, Option.some.injEq, Prod.ext_iff,
        Nat.add_comm 1, Nat.add_right_cancel_iff]

/-- A carriage return before the line feed and a tab before the name make no
difference: the name `z` is shown in the fifth column of the second line. -/
theorem place_shown_behind_return :
    let d : Diagnostic := ⟨.undefinedName "z", 2, ⟨12, 13⟩⟩
    d ∈ problems [] "y = 1;\r\n\ty+ z;" ∧
      (ofDiagnostic "y = 1;\r\n\ty+ z;" d)[1]? = some (placeRow 2 5) := by
  intro d
  have hproblems : problems [] "y = 1;\r\n\ty+ z;" = [d] := by with_unfolding_all rfl
  have hmem : d ∈ problems [] "y = 1;\r\n\ty+ z;" := by
    rw [hproblems]
    exact List.mem_singleton_self d
  obtain ⟨before, after, hsource, hstart, -, -, hiff⟩ := place_shown_iff hmem
  obtain ⟨rfl, rfl⟩ := split_of_byteLength_eq
    (show "y = 1;\r\n\ty+ ".toList ++ "z;".toList = before ++ after from hsource) hstart
  exact ⟨hmem, hiff.mpr (by decide)⟩

/-- In the second line, behind a comment with a character of two bytes, the
name `z` is not shown in the first column, where it stands. -/
theorem place_misshown :
    ¬ ∀ (inputs : List String) (source : String) (d : Diagnostic), d ∈ problems inputs source →
      ∃ before after, source.toList = before ++ after ∧ d.span.start = byteLength before ∧
        (ofDiagnostic source d)[1]? = some (placeRow d.line (1 + columnBehind before)) := by
  intro h
  let d : Diagnostic := ⟨.undefinedName "z", 2, ⟨5, 6⟩⟩
  have hproblems : problems [] "# é\nz;" = [d] := by with_unfolding_all rfl
  obtain ⟨before, after, hsource, hstart, hshown⟩ :=
    h [] "# é\nz;" d (hproblems ▸ List.mem_singleton_self d)
  obtain ⟨rfl, rfl⟩ := split_of_byteLength_eq
    (show "# é\n".toList ++ "z;".toList = before ++ after from hsource) hstart
  have hrow : (ofDiagnostic "# é\nz;" d)[1]? = some (placeRow 2 2) := by with_unfolding_all rfl
  rw [hrow, Option.some.injEq, placeRow_inj] at hshown
  exact absurd hshown.2 (by decide)

end Pixelwise
