/-
Attribution — every problem is shown at a token of the source.

A diagnostic carries the line and the span of one token that the scan of the
source gives, or of the end where something is missing there (`blames_of_mem`).
What the message puts in quotes is the text of that token.  The token that the
compiler starts from, before it has taken any, is never among them: nothing
depends on it.

Main statement: `error_located_ordered`.
-/
import Pixelwise.Proofs.Blaming
import Pixelwise.Proofs.Concatenation
import Pixelwise.Proofs.Munching
import Pixelwise.Proofs.Ordering

namespace Pixelwise

open Token Syntax Compiler

/-- The message has the name between its first and its last apostrophe. -/
def Quotes (message name : String) : Prop :=
  ∃ before after, message = before ++ "'" ++ name ++ "'" ++ after ∧
    '\'' ∉ before.toList ∧ '\'' ∉ after.toList

/-- The diagnostic is shown at the token, and says what is written there. -/
structure Diagnostic.ShownAt (source : String) (d : Diagnostic) (t : Token) : Prop where
  scanned : t ∈ scan source ∨ t = endOf source ∧ d.code ∈ ["P001", "P002"]
  span : d.span = t.span
  line : d.line = t.line
  character : d.code = "L001" → t.kind.isUnexpected = true ∧ Quotes d.message t.lexeme
  name : d.code ∈ ["N001", "N002", "N003", "N004", "A001"] →
    t.kind = .identifier ∧ Quotes d.message t.lexeme

/-! ## What a message quotes -/

theorem quotes_between {front back : String} (before after name : String)
    (h : (front = before ++ "'" ∧ '\'' ∉ before.toList) ∧
      back = "'" ++ after ∧ '\'' ∉ after.toList) :
    Quotes (front ++ name ++ back) name := by
  obtain ⟨⟨rfl, hbefore⟩, rfl, hafter⟩ := h
  refine ⟨before, after, ?_, hbefore, hafter⟩
  simp only [String.append_assoc]

/-- A message may go on with text that has no apostrophe. -/
theorem Quotes.append {message name more : String} (h : Quotes message name)
    (hmore : '\'' ∉ more.toList) : Quotes (message ++ more) name := by
  obtain ⟨before, after, rfl, hbefore, hafter⟩ := h
  refine ⟨before, after ++ more, (String.append_assoc ..).symm ▸ rfl, hbefore, ?_⟩
  rw [String.toList_append, List.mem_append]
  exact not_or.mpr ⟨hafter, hmore⟩

theorem quotes_arity (name : String) (expected found : Nat) :
    Quotes (Problem.arityMismatch name expected found).message name := by
  have hdigits : ∀ n : Nat, '\'' ∉ (toString n).toList := notMem_toString (by decide)
  have hquotes : Quotes ("Function '" ++ name ++ "' expects ") name :=
    quotes_between "Function " " expects " _ (by decide)
  have hgot : '\'' ∉ " argument(s) but got ".toList := by decide
  have hexpected := (hquotes.append (hdigits expected)).append hgot
  exact (hexpected.append (hdigits found)).append (by decide)

theorem Problem.Fits.quotes {p : Problem} {t : Token} (h : p.Fits t)
    (hcode : p.code ∈ ["N001", "N002", "N003", "N004", "A001"]) :
    t.kind = .identifier ∧ Quotes p.message t.lexeme := by
  cases p with
  | undefinedName name =>
      obtain ⟨hk, rfl⟩ := h
      exact ⟨hk, quotes_between "Undefined name " "." _ (by decide)⟩
  | assignToInput name =>
      obtain ⟨hk, rfl⟩ := h
      exact ⟨hk, quotes_between "Cannot assign to input " "." _ (by decide)⟩
  | assignToFunction name =>
      obtain ⟨hk, rfl⟩ := h
      exact ⟨hk, quotes_between "Cannot assign to function " "." _ (by decide)⟩
  | functionNotCalled name =>
      obtain ⟨hk, rfl⟩ := h
      exact ⟨hk, quotes_between "Function " " used without calling it." _ (by decide)⟩
  | arityMismatch name expected found =>
      obtain ⟨hk, rfl⟩ := h
      exact ⟨hk, quotes_arity _ expected found⟩
  | _ => simp [Problem.code] at hcode

/-- A token of an unexpected character is that character. -/
theorem lexeme_of_unexpected {source : String} {t : Token} {c : Char} (ht : t ∈ scan source)
    (hk : t.kind = .unexpected c) : t.lexeme = c.toString := by
  obtain ⟨d, ds, hkind, hlexeme⟩ := mem_scanFrom ht
  rcases munch_mem d ds with ⟨hstray, hone⟩ | hword
  · cases hk.symm.trans (hkind.trans hstray)
    rw [hlexeme, hone]
    rfl
  · rw [← hkind, hk] at hword
    exact absurd hword (Language.notMem_zero _)

/-- What is blamed on a token is shown there. -/
theorem shownAt_of_fits {source : String} {d : Diagnostic} {t : Token}
    (ht : t ∈ scan source ++ [endOf source]) (hd : d = at' d.problem t) (h : d.problem.Fits t) :
    d.ShownAt source t where
  scanned := by
    rcases List.mem_append.mp ht with ht | ht
    · exact Or.inl ht
    · obtain rfl := List.mem_singleton.mp ht
      refine Or.inr ⟨rfl, ?_⟩
      -- The end is no character, no name, no number, and nothing too much.
      rw [Diagnostic.code]
      cases hp : d.problem <;> rw [hp] at h <;> simp_all [Problem.Fits, Problem.code, endOf]
  span := congrArg Diagnostic.span hd
  line := congrArg Diagnostic.line hd
  character := by
    intro hcode
    obtain ⟨c, hc⟩ : ∃ c, d.problem = .unexpectedCharacter c := by
      rw [Diagnostic.code] at hcode
      cases hp : d.problem <;> simp_all [Problem.code]
    rw [hc] at h
    have hk : t.kind = .unexpected c := h
    have hscan : t ∈ scan source := by
      refine (List.mem_append.mp ht).resolve_right fun hend => ?_
      obtain rfl := List.mem_singleton.mp hend
      cases hk
    rw [Diagnostic.message, hc, lexeme_of_unexpected hscan hk, hk]
    exact ⟨rfl, quotes_between "Unexpected character " "." _ (by decide)⟩
  name := h.quotes

/-! ## Where a compilation starts -/

theorem result_of_previous (inputs : List String) (s : State) (placeholder : Token) :
    (statements inputs { s with previous := placeholder }).result =
      (statements inputs s).result := by
  by_cases hp : s.pending = []
  · have hp' : { s with previous := placeholder }.pending = [] := hp
    rw [statements, dif_pos hp', statements, dif_pos hp]
    rfl
  · rw [statements_previous hp]

/-! ## All that is wrong with a source -/

/-- A source that does not compile has something wrong with it, and each
problem is shown at a token, in the order of the statements; none comes from
the token that the compiler starts with. -/
theorem error_located_ordered {inputs : List String} {source : String} {ds : List Diagnostic}
    (h : compile inputs source = .error ds) :
    ds ≠ [] ∧ (∀ d ∈ ds, ∃ t, d.ShownAt source t) ∧
      (ds.Pairwise fun d e => semicolonsBefore source d ≤ semicolonsBefore source e) ∧
      ∀ placeholder : Token,
        (statements inputs
          { State.start [] (scan source) (endOf source) with previous := placeholder }).result =
            .error ds := by
  have hproblems : problems inputs source = ds := by rw [problems, h]
  refine ⟨?_, ?_, ?_, ?_⟩
  · rintro rfl
    rw [compile, compileAfter, State.result] at h
    split at h
    · cases h
    · rename_i hsome
      exact hsome (by simpa using h)
  · intro d hd
    obtain ⟨t, ht, hat, hfits⟩ := blames_of_mem (hproblems.symm ▸ hd)
    exact ⟨t, shownAt_of_fits ht hat hfits⟩
  · exact hproblems ▸ pairwise_semicolonsBefore inputs source
  · intro placeholder
    rw [result_of_previous]
    exact h

/-- A name that stands for nothing, a character that is no token, and a
semicolon that is missing at the end. -/
theorem error_located_ordered_three :
    compile ["x"] "y;\n@ x" = .error
        [⟨.undefinedName "y", 1, ⟨0, 1⟩⟩, ⟨.unexpectedCharacter '@', 2, ⟨3, 4⟩⟩,
          ⟨.missing .semicolonAfterExpression, 2, ⟨6, 6⟩⟩] ∧
      ∀ d ∈ problems ["x"] "y;\n@ x", ∃ t, d.ShownAt "y;\n@ x" t := by
  have h : compile ["x"] "y;\n@ x" = .error
      [⟨.undefinedName "y", 1, ⟨0, 1⟩⟩, ⟨.unexpectedCharacter '@', 2, ⟨3, 4⟩⟩,
        ⟨.missing .semicolonAfterExpression, 2, ⟨6, 6⟩⟩] := by
    with_unfolding_all rfl
  refine ⟨h, ?_⟩
  rw [problems, h]
  exact (error_located_ordered h).2.1

end Pixelwise
