/-
Tiling — the tokens and the spacing between them are the whole source.

Every span marks off whole characters of the source, and these characters are
the lexeme.  What lies in front of a token and behind the one before it is
spacing, and behind the last token only a comment may still be open.  The
scan follows `Lexes`, where each token stands behind all the text that was
read before it; so the places are read off that derivation.

Main statement: `tiles_scan`.
-/
import Mathlib.Data.String.Basic
import Pixelwise.Proofs.Standing
import Pixelwise.Proofs.Lexing

namespace Pixelwise

/-- The text that a span marks off. -/
def Span.cut (source : String) (s : Span) : String :=
  String.Pos.Raw.extract source ⟨s.start⟩ ⟨s.stop⟩

namespace Token

/-- Where the last of some tokens ends; they stand behind `place`. -/
def reached (place : Nat) (tokens : List Token) : Nat :=
  tokens.foldl (fun _ t => t.span.stop) place

/-- Tokens, and the one of the end, with spacing between them make up a
source. -/
structure Tiles (source : String) (tokens : List Token) (final : Token) : Prop where
  nonempty : ∀ t ∈ tokens, t.span.start < t.span.stop
  bounds : ∀ t ∈ tokens ++ [final], t.span.stop ≤ source.utf8ByteSize
  boundaries : ∀ t ∈ tokens ++ [final],
    String.Pos.Raw.IsValid source ⟨t.span.start⟩ ∧ String.Pos.Raw.IsValid source ⟨t.span.stop⟩
  text : ∀ t ∈ tokens ++ [final], t.span.cut source = t.lexeme
  ordered : (tokens ++ [final]).Pairwise fun t u =>
    t.span.start < u.span.start ∧ t.span.stop ≤ u.span.start
  spacing : ∀ front t behind, tokens = front ++ t :: behind →
    Spacing (Span.cut source ⟨reached 0 front, t.span.start⟩).toList
  trailing : Trailing (Span.cut source ⟨reached 0 tokens, source.utf8ByteSize⟩).toList
  line : ∀ t ∈ tokens ++ [final],
    t.line = 1 + (Span.cut source ⟨0, t.span.start⟩).toList.count '\n' ∧ t.line < 2 ^ 32

/-! ## What a span marks off -/

theorem utf8Len_eq (cs : List Char) : String.utf8Len cs = byteLength cs := by
  induction cs with
  | nil => rfl
  | cons c cs ih => rw [String.utf8Len_cons, byteLength, ih, Nat.add_comm]

section

variable {source : String} {front middle behind : List Char}

theorem cut_eq (h : source.toList = front ++ (middle ++ behind)) :
    Span.cut source ⟨byteLength front, byteLength front + byteLength middle⟩ =
      String.ofList middle := by
  have hsource : source = String.ofList (front ++ middle ++ behind) := by
    rw [List.append_assoc, ← h, String.ofList_toList]
  have hextract := String.extract_of_valid front middle behind
  rw [utf8Len_eq, utf8Len_eq, ← hsource] at hextract
  exact hextract

theorem isValid_of_split (h : source.toList = front ++ behind) :
    String.Pos.Raw.IsValid source ⟨byteLength front⟩ := by
  refine String.Pos.Raw.isValid_iff_exists_append.mpr
    ⟨String.ofList front, String.ofList behind, ?_, ?_⟩
  · rw [← String.ofList_append, ← h, String.ofList_toList]
  · rw [String.rawEndPos, utf8ByteSize_eq, String.toList_ofList]

end

/-! ## The spacing between the tokens -/

/-- In front of each token there is spacing, back to where the token before
it ends. -/
theorem Lexes.spacing {before text : List Char} {tokens : List Token}
    (h : Lexes before text tokens) :
    ∀ front t behind, tokens = front ++ t :: behind →
      ∃ as gap bs, before ++ text = as ++ (gap ++ bs) ∧ Spacing gap ∧
        reached (byteLength before) front = byteLength as ∧
        t.span.start = byteLength as + byteLength gap := by
  induction h with
  | done => simp
  | @token before gap lexeme rest kind tokens hgap _ _ _ ih =>
      intro front t behind hsplit
      cases front with
      | nil =>
          obtain ⟨rfl, rfl⟩ := List.cons.inj hsplit
          exact ⟨before, gap, lexeme ++ rest, rfl, hgap, rfl, byteLength_append before gap⟩
      | cons u front =>
          obtain ⟨rfl, htokens⟩ := List.cons.inj hsplit
          obtain ⟨as, gap', bs, htext, h⟩ := ih front t behind htokens
          refine ⟨as, gap', bs, ?_, h⟩
          rw [← htext]
          simp only [List.append_assoc]

theorem Lexes.trailing {before text : List Char} {tokens : List Token}
    (h : Lexes before text tokens) :
    ∃ as gap, before ++ text = as ++ gap ∧ Trailing gap ∧
      reached (byteLength before) tokens = byteLength as := by
  induction h with
  | @done before gap hgap => exact ⟨before, gap, rfl, hgap, rfl⟩
  | @token before gap lexeme rest kind tokens _ _ _ _ ih =>
      obtain ⟨as, gap', htext, h⟩ := ih
      refine ⟨as, gap', ?_, h⟩
      rw [← htext]
      simp only [List.append_assoc]

/-! ## The whole source -/

/-- Each token, the one of the end included, stands somewhere in the source. -/
theorem exists_stands {source : String} {t : Token} (h : t ∈ scan source ++ [endOf source]) :
    ∃ before after, Stands 0 1 source.toList before after t := by
  rcases List.mem_append.mp h with h | h
  · exact stands_of_mem_scan h
  · obtain rfl := List.mem_singleton.mp h
    exact ⟨source.toList, [], stands_endOf source⟩

theorem Stands.cut {source : String} {before after : List Char} {t : Token}
    (h : Stands 0 1 source.toList before after t) :
    t.span.cut source = t.lexeme ∧
      Span.cut source ⟨0, t.span.start⟩ = String.ofList before := by
  have hstart : t.span.start = byteLength before := by rw [h.start, Nat.zero_add]
  constructor
  · have hspan : t.span = ⟨byteLength before, byteLength before + byteLength t.lexeme.toList⟩ := by
      rw [← hstart, ← h.stop]
    rw [hspan, cut_eq h.text, String.ofList_toList]
  · have hfront : Span.cut source ⟨byteLength [], byteLength [] + byteLength before⟩ =
        String.ofList before :=
      cut_eq h.text
    rw [hstart]
    rwa [byteLength, Nat.zero_add] at hfront

theorem Stands.isValid {source : String} {before after : List Char} {t : Token}
    (h : Stands 0 1 source.toList before after t) :
    String.Pos.Raw.IsValid source ⟨t.span.start⟩ ∧ String.Pos.Raw.IsValid source ⟨t.span.stop⟩ := by
  have hstart : t.span.start = byteLength before := by rw [h.start, Nat.zero_add]
  have hstop : t.span.stop = byteLength (before ++ t.lexeme.toList) := by
    rw [h.stop, hstart, byteLength_append]
  rw [hstart, hstop]
  have hbehind : source.toList = before ++ t.lexeme.toList ++ after := by
    rw [List.append_assoc]
    exact h.text
  exact ⟨isValid_of_split h.text, isValid_of_split hbehind⟩

theorem ordered_scan (source : String) :
    (scan source ++ [endOf source]).Pairwise fun t u =>
      t.span.start < u.span.start ∧ t.span.stop ≤ u.span.start := by
  refine List.pairwise_append.mpr ⟨?_, List.pairwise_singleton _ _, ?_⟩
  · refine (pairwise_scanFrom 0 1 source.toList).imp_of_mem fun ht _ hle => ?_
    exact ⟨Nat.lt_of_lt_of_le (nonempty_of_mem_scan ht) hle, hle⟩
  · intro t ht u hu
    obtain rfl := List.mem_singleton.mp hu
    exact ⟨Nat.lt_of_lt_of_le (nonempty_of_mem_scan ht) (stop_le_of_mem_scan ht),
      stop_le_of_mem_scan ht⟩

/-- The tokens tile the source, and their lines are those that the line feeds
before them say.  A source of fewer line feeds has lines that 32 bits hold. -/
theorem tiles_scan (source : String) (h : source.toList.count '\n' < 2 ^ 32 - 1) :
    Tiles source (scan source) (endOf source) where
  nonempty := fun _ ht => nonempty_of_mem_scan ht
  bounds := by
    intro t ht
    rcases List.mem_append.mp ht with ht | ht
    · exact stop_le_of_mem_scan ht
    · obtain rfl := List.mem_singleton.mp ht
      exact Nat.le_refl _
  boundaries := by
    intro t ht
    obtain ⟨before, after, hstands⟩ := exists_stands ht
    exact hstands.isValid
  text := by
    intro t ht
    obtain ⟨before, after, hstands⟩ := exists_stands ht
    exact hstands.cut.1
  ordered := ordered_scan source
  spacing := by
    intro front t behind hsplit
    have hlexes : Lexes [] source.toList (scan source) := lexes_iff.mpr rfl
    obtain ⟨as, gap, bs, htext, hgap, hfront, hstart⟩ := hlexes.spacing front t behind hsplit
    have hcut := cut_eq htext
    rw [← hstart, ← hfront] at hcut
    rw [show (0 : Nat) = byteLength [] from rfl, hcut, String.toList_ofList]
    exact hgap
  trailing := by
    have hlexes : Lexes [] source.toList (scan source) := lexes_iff.mpr rfl
    obtain ⟨as, gap, htext, hgap, hfront⟩ := hlexes.trailing
    have hsize : source.utf8ByteSize = byteLength as + byteLength gap := by
      rw [utf8ByteSize_eq, ← byteLength_append, ← htext, List.nil_append]
    have hends : source.toList = as ++ (gap ++ []) := by
      rw [List.append_nil]
      exact htext
    have hcut := cut_eq hends
    rw [← hsize, ← hfront] at hcut
    rw [show (0 : Nat) = byteLength [] from rfl, hcut, String.toList_ofList]
    exact hgap
  line := by
    intro t ht
    obtain ⟨before, after, hstands⟩ := exists_stands ht
    have hle : before.count '\n' ≤ source.toList.count '\n' := by
      rw [hstands.text, List.count_append]
      exact Nat.le_add_right _ _
    rw [hstands.cut.2, String.toList_ofList, hstands.line]
    exact ⟨rfl, by omega⟩

/-- A comment with a character of two bytes, a carriage return, a character that
is no token and a comment that the end leaves open. -/
theorem tiles_scan_commented :
    "x'=1 # \u00e9\r\n;\u00e9#".toList.count '\n' < 2 ^ 32 - 1 ∧
      Tiles "x'=1 # \u00e9\r\n;\u00e9#" (scan "x'=1 # \u00e9\r\n;\u00e9#")
        (endOf "x'=1 # \u00e9\r\n;\u00e9#") :=
  ⟨by decide, tiles_scan _ (by decide)⟩

end Token

end Pixelwise
