/-
Painting — a highlighted line is still the line.

The lexing of a line takes it apart into spacing and tokens, and highlighting
follows it: what is passed over becomes a dimmed piece if there is any, and
each token becomes a piece of its own.  Behind every token the offset that was
reached is the number of bytes of the text in front, so it never falls inside
a character, and all cuts are possible.

Main statement: `highlight_lossless`.
-/
import Mathlib.Data.List.Chain
import Pixelwise.Highlight.Slicing
import Pixelwise.Proofs.Tiling

namespace Pixelwise

namespace Highlight

open Token

/-! ## What is asked for -/

/-- The style in which a token is shown, by its kind and its lexeme alone. -/
inductive Shows (inputs : List String) (t : Token) : Style → Prop
  | number : t.kind = .number → Shows inputs t ⟨.cyan, none⟩
  | function (f : Builtin) : t.kind = .identifier → f.name = t.lexeme → Shows inputs t ⟨.blue, none⟩
  | input : t.kind = .identifier → (∀ f : Builtin, f.name ≠ t.lexeme) → t.lexeme ∈ inputs →
      Shows inputs t ⟨.yellow, none⟩
  | name : t.kind = .identifier → (∀ f : Builtin, f.name ≠ t.lexeme) → t.lexeme ∉ inputs →
      Shows inputs t ⟨.red, none⟩
  | unexpected (c : Char) : t.kind = .unexpected c → Shows inputs t ⟨.white, some .red⟩
  | other : t.kind ≠ .number → t.kind ≠ .identifier → (∀ c, t.kind ≠ .unexpected c) →
      Shows inputs t ⟨.white, none⟩

/-- A dimmed piece. -/
def IsDim (piece : String × Style) : Prop :=
  piece.2.foreground = .darkGray

instance (piece : String × Style) : Decidable (IsDim piece) :=
  inferInstanceAs (Decidable (_ = _))

/-- The pieces are all of the line; none of them is empty; no two dimmed ones
meet; and the others are the tokens, in order. -/
structure Lossless (inputs : List String) (line : String) (tokens : List Token)
    (pieces : List (String × Style)) : Prop where
  text : String.join (pieces.map Prod.fst) = line
  nonempty : ∀ p ∈ pieces, p.1 ≠ ""
  apart : pieces.IsChain fun p q => ¬(IsDim p ∧ IsDim q)
  tokens : List.Forall₂ (fun t p => p.1 = t.lexeme ∧ Shows inputs t p.2) tokens
    (pieces.filter fun p => ¬IsDim p)

/-! ## Styles -/

theorem shows_style (inputs : List String) (t : Token) : Shows inputs t (style inputs t) := by
  unfold style
  split
  · exact .number ‹_›
  · rename_i hkind
    by_cases hlibrary : (Builtin.ofName? t.lexeme).isSome
    · obtain ⟨f, hf⟩ := Option.isSome_iff_exists.mp hlibrary
      rw [if_pos hlibrary]
      exact .function f hkind (Builtin.name_of_ofName? hf)
    · have hnone : ∀ f : Builtin, f.name ≠ t.lexeme := by
        intro f hf
        rw [Builtin.ofName?_eq_some_iff.mpr hf] at hlibrary
        exact hlibrary rfl
      rw [if_neg hlibrary]
      split
      · exact .input hkind hnone ‹_›
      · exact .name hkind hnone ‹_›
  · exact .unexpected _ ‹_›
  · rename_i hnumber hidentifier hunexpected
    exact .other hnumber hidentifier hunexpected

theorem Shows.not_dim {inputs : List String} {t : Token} {s : Style} (h : Shows inputs t s)
    (text : String) : ¬IsDim (text, s) := by
  cases h <;> simp [IsDim]

/-! ## Cuts -/

theorem splitBytes_append (front behind : List Char) :
    splitBytes (byteLength front) (front ++ behind) = (front, behind) := by
  induction front with
  | nil => cases behind <;> simp [byteLength, splitBytes]
  | cons c front ih =>
      have hpos := Char.utf8Size_pos c
      rw [List.cons_append, splitBytes, byteLength, if_neg (by omega), Nat.add_sub_cancel_left, ih]

/-- A cut between two pieces of a line is possible. -/
theorem skip?_eq {line : String} {front middle behind : List Char}
    (h : line.toList = front ++ (middle ++ behind)) :
    skip? line (byteLength front) (byteLength (front ++ middle)) = some (gap middle) := by
  have hstart := isValid_of_split h
  have hstop : String.Pos.Raw.IsValid line ⟨byteLength (front ++ middle)⟩ :=
    isValid_of_split (h.trans (List.append_assoc ..).symm)
  have hcut := cut_eq h
  rw [← byteLength_append] at hcut
  cases middle with
  | nil => simp [skip?, gap]
  | cons c middle =>
      have hpos := byteLength_pos (List.cons_ne_nil c middle)
      have hlt : byteLength front < byteLength (front ++ c :: middle) := by
        rw [byteLength_append]
        omega
      have hslice : slice? line (byteLength front) (byteLength (front ++ c :: middle)) =
          some (String.ofList (c :: middle)) := by
        rw [slice?, if_pos ⟨Nat.le_of_lt hlt, String.Pos.Raw.isValid_eq_true_iff.mpr hstart,
          String.Pos.Raw.isValid_eq_true_iff.mpr hstop⟩]
        exact congrArg some hcut
      rw [skip?, if_pos hlt, hslice]
      rfl

/-- Between the bytes of a character there is no cut. -/
example : slice? "é" 0 1 = none := by decide

/-! ## One token after another -/

variable {inputs : List String}

theorem pieces_token {before between lexeme rest : List Char} {t : Token} (tokens : List Token)
    (hstart : t.span.start = byteLength (before ++ between))
    (hstop : t.span.stop = byteLength (before ++ between ++ lexeme)) :
    pieces inputs (byteLength before) (between ++ (lexeme ++ rest)) (t :: tokens) =
      gap between ++ (t.lexeme, style inputs t) ::
        pieces inputs (byteLength (before ++ between ++ lexeme)) rest tokens := by
  have hbetween : byteLength (before ++ between) - byteLength before = byteLength between := by
    rw [byteLength_append, Nat.add_sub_cancel_left]
  have hlexeme : byteLength (before ++ between ++ lexeme) - byteLength (before ++ between) =
      byteLength lexeme := by
    rw [byteLength_append, Nat.add_sub_cancel_left]
  rw [pieces, hstart, hstop, hbetween, hlexeme, splitBytes_append, splitBytes_append]

/-- The cuts of the loop come to the pieces of the text. -/
theorem paintFrom?_eq {line : String} {before text : List Char} {tokens : List Token}
    (h : Lexes before text tokens) (hline : line.toList = before ++ text) :
    paintFrom? inputs line (byteLength before) tokens =
      some (pieces inputs (byteLength before) text tokens) := by
  induction h with
  | @done before between _ =>
      have hend : line.toList = before ++ (between ++ []) := by rw [hline, List.append_nil]
      rw [paintFrom?, utf8ByteSize_eq, hline, skip?_eq hend]
      rfl
  | @token before between lexeme rest kind tokens _ _ _ _ ih =>
      have hrest : line.toList = before ++ between ++ lexeme ++ rest := by
        rw [hline]
        simp only [List.append_assoc]
      rw [paintFrom?, skip?_eq hline, ih hrest, pieces_token tokens rfl rfl]
      rfl

/-! ## Nothing is lost -/

theorem lossless_gap (inputs : List String) (between : List Char) :
    Lossless inputs (String.ofList between) [] (gap between) := by
  unfold gap
  split
  · rename_i hnil
    subst hnil
    exact ⟨rfl, by simp, .nil, .nil⟩
  · rename_i hne
    refine ⟨by simp, ?_, .singleton _, ?_⟩
    · simpa using fun h => hne (String.ofList_eq_empty_iff.mp h)
    · simp [IsDim, skipped]

/-- A token in front, with what was passed over before it. -/
theorem Lossless.token {line : String} {tokens : List Token} {ps : List (String × Style)}
    (h : Lossless inputs line tokens ps) (between : List Char) {t : Token} (hne : t.lexeme ≠ "") :
    Lossless inputs (String.ofList between ++ (t.lexeme ++ line)) (t :: tokens)
      (gap between ++ (t.lexeme, style inputs t) :: ps) := by
  have hgap := lossless_gap inputs between
  have hdim := (shows_style inputs t).not_dim t.lexeme
  refine ⟨?_, ?_, ?_, ?_⟩
  · rw [List.map_append, String.join_append, hgap.text, List.map_cons, String.join_cons, h.text]
  · intro p hp
    rcases List.mem_append.mp hp with hp | hp
    · exact hgap.nonempty p hp
    · rcases List.mem_cons.mp hp with rfl | hp
      · exact hne
      · exact h.nonempty p hp
  · refine List.isChain_append.mpr ⟨hgap.apart, ?_, ?_⟩
    · refine List.isChain_cons.mpr ⟨fun q _ hboth => hdim hboth.1, h.apart⟩
    · intro p _ q hq hboth
      obtain rfl := Option.some.inj hq
      exact hdim hboth.2
  · have hnone : (gap between).filter (fun p => ¬IsDim p) = [] :=
      List.forall₂_nil_left_iff.mp hgap.tokens
    rw [List.filter_append, hnone, List.nil_append, List.filter_cons_of_pos (by simpa using hdim)]
    exact .cons ⟨rfl, shows_style inputs t⟩ h.tokens

theorem lossless_pieces (inputs : List String) {before text : List Char} {tokens : List Token}
    (h : Lexes before text tokens) :
    Lossless inputs (String.ofList text) tokens
      (pieces inputs (byteLength before) text tokens) := by
  induction h with
  | @done before between _ => exact lossless_gap inputs between
  | @token before between lexeme rest kind tokens _ _ htakes _ ih =>
      rw [pieces_token tokens rfl rfl, String.ofList_append, String.ofList_append]
      have hne : String.ofList lexeme ≠ "" := fun hempty =>
        htakes.ne_nil (String.ofList_eq_empty_iff.mp hempty)
      exact ih.token (t := ⟨kind, String.ofList lexeme, _, _⟩) between hne

end Highlight

open Highlight

/-- Every line can be cut into its pieces, and nothing of it is lost or added:
what is not dimmed are the tokens of its scan, each in the style that it has
by itself. -/
theorem highlight_lossless (inputs : List String) (line : String) :
    paint? inputs line = some (highlight inputs line) ∧
      Lossless inputs line (Token.scan line) (highlight inputs line) := by
  have hlexes : Token.Lexes [] line.toList (Token.scan line) := Token.lexes_iff.mpr rfl
  refine ⟨paintFrom?_eq hlexes rfl, ?_⟩
  have hlossless := lossless_pieces inputs hlexes
  rwa [String.ofList_toList] at hlossless

end Pixelwise
