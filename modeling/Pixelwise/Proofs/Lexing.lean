/-
Lexing — the scanner finds the tokens that the lexicon asks for.

Every text is passed over as far as spacing goes, to a character that is not
passed over or to the end (`exists_gap`).  The scanner goes over spacing
without a token (`scanFrom_gap`) and then takes the longest word
(`takes_iff`), so it follows `Lexes` from one token to the next.

Main statement: `scanner_longest_match`, that a scanner which is asked for one
token after another gives these tokens, and from then on the end.
-/
import Pixelwise.Token.Scanner
import Pixelwise.Proofs.Munching

namespace Pixelwise.Token

/-! ## Spacing is passed over as far as it goes -/

theorem Spacing.append {gap gap' : List Char} (h : Spacing gap) (h' : Spacing gap') :
    Spacing (gap ++ gap') := by
  induction h with
  | none => exact h'
  | blank hc _ ih => exact .blank hc ih
  | newline _ ih => exact .newline ih
  | @comment text cs htext _ ih =>
      rw [List.cons_append, List.append_assoc, List.cons_append]
      exact .comment htext ih

theorem Trailing.behind {gap text : List Char} (hgap : Spacing gap) (h : Trailing text) :
    Trailing (gap ++ text) := by
  cases h with
  | spacing h => exact .spacing (hgap.append h)
  | comment h htext =>
      rw [← List.append_assoc]
      exact .comment (hgap.append h) htext

/-- A text goes on behind spacing with a token, or is all spacing. -/
def Parted (text : List Char) : Prop :=
  (∃ gap rest, text = gap ++ rest ∧ Spacing gap ∧ Opens rest) ∨ Trailing text

theorem Parted.behind {gap text : List Char} (hgap : Spacing gap) (h : Parted text) :
    Parted (gap ++ text) := by
  rcases h with ⟨gap', rest, rfl, hgap', hrest⟩ | h
  · exact Or.inl ⟨gap ++ gap', rest, (List.append_assoc ..).symm, hgap.append hgap', hrest⟩
  · exact Or.inr (h.behind hgap)

theorem parted (text : List Char) : Parted text := by
  induction hlength : text.length using Nat.strongRecOn generalizing text with
  | ind n ih =>
      subst hlength
      cases text with
      | nil => exact Or.inr (.spacing .none)
      | cons c cs =>
          have hcs := ih cs.length (Nat.lt_succ_self _) cs rfl
          by_cases hline : c = '\n'
          · subst hline
            exact hcs.behind (.newline .none)
          by_cases hblank : isBlank c = true
          · exact hcs.behind (.blank hblank .none)
          by_cases hsign : c = '#'
          · subst hsign
            by_cases hends : cs.dropWhile (· ≠ '\n') = []
            · have hopen : '\n' ∉ cs := fun hmem => by
                simpa using List.dropWhile_eq_nil_iff.mp hends '\n' hmem
              exact Or.inr (.comment .none hopen)
            · obtain ⟨comment, rest, hcomment, rfl, -, -⟩ := exists_ended hends
              have hrest := ih rest.length (by simp; omega) rest rfl
              have hgap : Spacing ('#' :: (comment ++ ['\n'])) := .comment hcomment .none
              simpa using hrest.behind hgap
          · refine Or.inl ⟨[], c :: cs, rfl, .none, c, cs, rfl, ?_⟩
            simp only [isBlank, Bool.or_eq_true, decide_eq_true_eq] at hblank
            simp [hline, hsign]
            tauto

/-! ## What the scanner passes over -/

/-- Behind spacing the scan goes on further in the text. -/
theorem scanFrom_gap {gap : List Char} (hgap : Spacing gap) (offset line : Nat)
    (text : List Char) :
    scanFrom offset line (gap ++ text) =
      scanFrom (offset + byteLength gap) (line + gap.count '\n') text := by
  induction hgap generalizing offset line with
  | none => rfl
  | @blank c cs hc _ ih =>
      have hne : c ≠ '\n' := by
        rintro rfl
        cases hc
      rw [List.cons_append, scanFrom, if_neg hne, if_pos hc, ih, List.count_cons_of_ne hne,
        byteLength, utf8Size_of_isBlank hc, ← Nat.add_assoc]
  | newline _ ih =>
      have hsize : ('\n').utf8Size = 1 := by decide
      rw [List.cons_append, scanFrom, if_pos rfl, ih, List.count_cons_self, byteLength, hsize,
        ← Nat.add_assoc, Nat.add_assoc line, Nat.add_comm 1]
  | @comment text' cs htext _ ih =>
      have hall : ∀ c ∈ text', decide (c ≠ '\n') = true := fun c hc =>
        decide_eq_true fun he => htext (he ▸ hc)
      have hsign : ('#').utf8Size = 1 := by decide
      have hsize : ('\n').utf8Size = 1 := by decide
      rw [List.cons_append, scanFrom, if_neg (by decide), if_neg (by decide), if_pos rfl,
        List.append_assoc, List.cons_append, List.takeWhile_append_of_pos hall,
        List.dropWhile_append_of_pos hall, List.takeWhile_cons_of_neg (by decide),
        List.dropWhile_cons_of_neg (by decide), List.append_nil, scanFrom, if_pos rfl, ih,
        List.count_cons_of_ne (by decide), List.count_append, List.count_cons_self,
        List.count_eq_zero_of_not_mem htext]
      simp only [byteLength, byteLength_append, hsign, hsize]
      congr 1 <;> omega

theorem scanFrom_trailing {gap : List Char} (h : Trailing gap) (offset line : Nat) :
    scanFrom offset line gap = [] := by
  cases h with
  | spacing h => exact scanFrom_spacing h offset line
  | @comment gap text h htext =>
      have hdrop : text.dropWhile (· ≠ '\n') = [] := by
        refine List.dropWhile_eq_nil_iff.mpr fun c hc => ?_
        exact decide_eq_true fun he => htext (he ▸ hc)
      rw [scanFrom_gap h, scanFrom, if_neg (by decide), if_neg (by decide), if_pos rfl, hdrop,
        scanFrom]

/-- Where a token stands it is taken. -/
theorem scanFrom_takes {kind : Kind} {lexeme rest : List Char} (hopens : Opens (lexeme ++ rest))
    (htakes : Takes kind lexeme rest) (offset line : Nat) :
    '\n' ∉ lexeme ∧
      scanFrom offset line (lexeme ++ rest) =
        ⟨kind, String.ofList lexeme, line, ⟨offset, offset + byteLength lexeme⟩⟩ ::
          scanFrom (offset + byteLength lexeme) line rest := by
  obtain ⟨c, cs, htext, hc⟩ := hopens
  simp only [List.mem_cons, List.not_mem_nil, or_false, not_or] at hc
  obtain ⟨hspace, htab, hreturn, hline, hsign⟩ := hc
  have hblank : ¬isBlank c = true := by
    simp [isBlank, hspace, htab, hreturn]
  have hmunch := (takes_iff htext).mp htakes
  have hnone := newline_notMem_lexeme hline cs
  rw [hmunch] at hnone
  rw [htext, scanFrom, if_neg hline, if_neg hblank, if_neg hsign, hmunch]
  exact ⟨hnone, rfl⟩

/-! ## The tokens of a text -/

theorem Lexes.scanned {before text : List Char} {tokens : List Token}
    (h : Lexes before text tokens) :
    tokens = scanFrom (byteLength before) (1 + before.count '\n') text := by
  induction h with
  | done hgap => exact (scanFrom_trailing hgap _ _).symm
  | @token before gap lexeme rest kind tokens hgap hopens htakes _ ih =>
      obtain ⟨hnone, hscan⟩ :=
        scanFrom_takes hopens htakes (byteLength before + byteLength gap)
          (1 + before.count '\n' + gap.count '\n')
      rw [scanFrom_gap hgap, hscan, ih]
      simp only [byteLength_append, List.count_append, List.count_eq_zero_of_not_mem hnone,
        Nat.add_zero, Nat.add_assoc]

theorem exists_lexes (before text : List Char) : ∃ tokens, Lexes before text tokens := by
  induction hlength : text.length using Nat.strongRecOn generalizing before text with
  | ind n ih =>
      subst hlength
      rcases parted text with ⟨gap, rest, rfl, hgap, hopens⟩ | h
      · obtain ⟨c, cs, rfl, hc⟩ := hopens
        have hshorter := munch_shorter c cs
        obtain ⟨tokens, htokens⟩ :=
          ih (munch c cs).rest.length (by simp; omega) (before ++ gap ++ (munch c cs).lexeme)
            (munch c cs).rest rfl
        have htext := munch_append c cs
        have htoken := Lexes.token hgap ⟨c, cs, htext, hc⟩ (takes_munch c cs) htokens
        rw [htext] at htoken
        exact ⟨_, htoken⟩
      · exact ⟨[], .done h⟩

/-- The scan of a text is what the lexicon asks for. -/
theorem lexes_iff {before text : List Char} {tokens : List Token} :
    Lexes before text tokens ↔
      tokens = scanFrom (byteLength before) (1 + before.count '\n') text := by
  constructor
  · exact Lexes.scanned
  · rintro rfl
    obtain ⟨tokens, htokens⟩ := exists_lexes before text
    exact htokens.scanned ▸ htokens

/-! ## One token after another -/

namespace Scanner

/-- The tokens that are still to come before the end. -/
def pending (s : Scanner) : List Token :=
  scanFrom s.offset s.line s.text

/-- The token of the end. -/
def final (s : Scanner) : Token :=
  ⟨.endOfInput, "", s.line + s.text.count '\n', ⟨s.source.utf8ByteSize, s.source.utf8ByteSize⟩⟩

theorem nextFrom_eq (source : String) (offset line : Nat) (text : List Char) :
    (nextFrom source offset line text).1 =
        (scanFrom offset line text).headD (final ⟨source, offset, line, text⟩) ∧
      (nextFrom source offset line text).2.pending = (scanFrom offset line text).tail ∧
      (nextFrom source offset line text).2.final = final ⟨source, offset, line, text⟩ := by
  fun_induction nextFrom source offset line text with
  | case1 offset line => simp [pending, final, scanFrom]
  | case2 offset line cs ih =>
      have hlines : final ⟨source, offset + 1, line + 1, cs⟩ =
          final ⟨source, offset, line, '\n' :: cs⟩ := by
        simp only [final, List.count_cons_self, Token.mk.injEq, true_and, and_true]
        omega
      rwa [scanFrom, if_pos rfl, ← hlines]
  | case3 offset line c cs hc hblank ih =>
      have hlines : final ⟨source, offset + 1, line, cs⟩ =
          final ⟨source, offset, line, c :: cs⟩ := by
        rw [final, final, List.count_cons_of_ne hc]
      rwa [scanFrom, if_neg hc, if_pos hblank, ← hlines]
  | case4 offset line cs hc hblank ih =>
      have hlines : ∀ offset', final ⟨source, offset', line, cs.dropWhile (· ≠ '\n')⟩ =
          final ⟨source, offset, line, '#' :: cs⟩ := by
        intro offset'
        have hcs := List.takeWhile_append_dropWhile (p := (· ≠ '\n')) (l := cs)
        have hnone : '\n' ∉ cs.takeWhile (· ≠ '\n') := notMem_takeWhile (by decide) cs
        rw [final, final, List.count_cons_of_ne hc]
        conv => rhs; rw [← hcs, List.count_append, List.count_eq_zero_of_not_mem hnone]
        rw [Nat.zero_add]
      rwa [scanFrom, if_neg hc, if_neg hblank, if_pos rfl, ← hlines]
  | case5 offset line c cs hc hblank hsign =>
      have hlines : final ⟨source, offset + byteLength (munch c cs).lexeme, line,
          (munch c cs).rest⟩ = final ⟨source, offset, line, c :: cs⟩ := by
        rw [final, final, ← munch_append c cs, List.count_append,
          List.count_eq_zero_of_not_mem (newline_notMem_lexeme hc cs), Nat.zero_add]
      rw [scanFrom, if_neg hc, if_neg hblank, if_neg hsign]
      exact ⟨rfl, rfl, hlines⟩

/-- A scanner gives what is still to come, and then the end. -/
theorem token_eq (s : Scanner) (n : Nat) : s.token n = s.pending[n]?.getD s.final := by
  induction n generalizing s with
  | zero =>
      obtain ⟨hnext, -, -⟩ := nextFrom_eq s.source s.offset s.line s.text
      show s.next.1 = _
      rw [next, hnext, pending]
      cases scanFrom s.offset s.line s.text <;> rfl
  | succ n ih =>
      obtain ⟨-, hpending, hfinal⟩ := nextFrom_eq s.source s.offset s.line s.text
      show s.next.2.token n = _
      rw [ih, next, hpending, hfinal, pending]
      cases scanFrom s.offset s.line s.text <;> rfl

end Scanner

/-- A scanner that is asked for one token after another gives the tokens that
the lexicon asks for, each the longest word at its place, and from then on
the end of the text. -/
theorem scanner_longest_match (source : String) :
    (∀ tokens, Lexes [] source.toList tokens ↔ tokens = scan source) ∧
      ∀ n, (Scanner.ofSource source).token n =
        (scan source)[n]?.getD ⟨.endOfInput, "", 1 + source.toList.count '\n',
          ⟨source.utf8ByteSize, source.utf8ByteSize⟩⟩ :=
  ⟨fun _ => lexes_iff, (Scanner.ofSource source).token_eq⟩

end Pixelwise.Token
