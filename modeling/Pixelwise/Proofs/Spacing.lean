/-
Spacing — where it stands, how much of it there is and what it is made of
does not change what a text says.

The scanner takes the longest token that there is, so a token must not be
cut short: but what is cut off behind it was no part of it
(`munch_cut`), and spacing goes on no token (`munch_before`).  Where a token
begins or ends no comment is open, so what is put in there is passed over.

Main statements: `wordsOf_insert`, that spacing can be put in at every such
place; and `wordsOf_spaced`, that the lexemes with single blanks between
them say what the text said.
-/
import Pixelwise.Token.Spacing
import Pixelwise.Proofs.Joining

namespace Pixelwise.Token

/-! ## Tokens and what is cut off behind them -/

section

variable {cs ds rest : List Char}

/-- What is taken and what is dropped do not depend on the text behind. -/
theorem span_cut {p : Char → Bool} (h : (cs ++ ds).dropWhile p = rest ++ ds) :
    cs.takeWhile p = (cs ++ ds).takeWhile p ∧ cs.dropWhile p = rest := by
  have hcs : cs = (cs ++ ds).takeWhile p ++ rest := by
    have hall : cs ++ ds = ((cs ++ ds).takeWhile p ++ rest) ++ ds := by
      rw [List.append_assoc, ← h, List.takeWhile_append_dropWhile]
    exact List.append_cancel_right hall
  have hall : ∀ c ∈ (cs ++ ds).takeWhile p, p c = true :=
    List.all_eq_true.mp List.all_takeWhile
  have hrest : rest.takeWhile p = [] ∧ rest.dropWhile p = rest := by
    cases rest with
    | nil => exact ⟨rfl, rfl⟩
    | cons d rest =>
        have hd : p d = false := by
          have := List.head?_dropWhile_not p (cs ++ ds)
          rwa [h] at this
        simp [hd]
  generalize (cs ++ ds).takeWhile p = taken at hcs hall
  subst hcs
  rw [List.takeWhile_append_of_pos hall, List.dropWhile_append_of_pos hall, hrest.1, hrest.2,
    List.append_nil]
  exact ⟨rfl, rfl⟩

theorem fraction_eq_nil {c d : Char} (es : List Char) (h : ¬(c = '.' ∧ d.isDigit = true)) :
    fraction (c :: d :: es) = ([], c :: d :: es) := by
  rw [fraction.eq_def]
  split
  · rename_i heq
    obtain ⟨rfl, hd⟩ := List.cons.inj heq
    obtain ⟨rfl, rfl⟩ := List.cons.inj hd
    exact if_neg fun hdigit => h ⟨rfl, hdigit⟩
  · rfl

theorem fraction_cut (h : (fraction (cs ++ ds)).2 = rest ++ ds) :
    fraction cs = ((fraction (cs ++ ds)).1, rest) := by
  have htext : (fraction (cs ++ ds)).1 ++ rest = cs := by
    have hall := fraction_append (cs ++ ds)
    rw [h, ← List.append_assoc] at hall
    exact List.append_cancel_right hall
  match cs with
  | [] =>
      obtain ⟨hnil, rfl⟩ := List.append_eq_nil_iff.mp htext
      rw [hnil]
      rfl
  | [c] =>
      have hnil : (fraction ([c] ++ ds)).1 = [] := by
        cases ds with
        | nil => exact congrArg Prod.fst (show fraction [c] = ([], [c]) from by simp [fraction])
        | cons d ds =>
            by_cases hc : c = '.' ∧ d.isDigit = true
            · obtain ⟨rfl, hd⟩ := hc
              simp [fraction, hd] at htext
            · exact congrArg Prod.fst (fraction_eq_nil ds hc)
      rw [hnil, List.nil_append] at htext
      rw [hnil, htext]
      simp [fraction]
  | c :: d :: es =>
      by_cases hc : c = '.' ∧ d.isDigit = true
      · obtain ⟨rfl, hd⟩ := hc
        simp only [List.cons_append, fraction, if_pos hd] at h ⊢
        obtain ⟨htake, hdrop⟩ := span_cut h
        rw [htake, hdrop]
      · have hnil : (fraction (c :: d :: es ++ ds)).1 = [] :=
          congrArg Prod.fst (fraction_eq_nil (es ++ ds) hc)
        rw [hnil, List.nil_append] at htext
        rw [hnil, htext, fraction_eq_nil es hc]

theorem munchSymbol_twofold {c : Char} {kind : Kind} (hc : withEqual? c = some kind)
    (cs : List Char) : munchSymbol c ('=' :: cs) = ⟨kind, [c, '='], cs⟩ := by
  simp [munchSymbol, hc]

theorem munchSymbol_single {c : Char}
    (h : ∀ kind tail, withEqual? c = some kind → cs ≠ '=' :: tail) :
    munchSymbol c cs = ⟨alone c, [c], cs⟩ := by
  unfold munchSymbol
  split
  · rename_i hc
    exact absurd rfl (h _ _ hc)
  · rfl

theorem munchSymbol_cut {c : Char} (h : (munchSymbol c (cs ++ ds)).rest = rest ++ ds) :
    munchSymbol c cs =
      ⟨(munchSymbol c (cs ++ ds)).kind, (munchSymbol c (cs ++ ds)).lexeme, rest⟩ := by
  have htext : (munchSymbol c (cs ++ ds)).lexeme ++ rest = c :: cs := by
    have hall := munchSymbol_append c (cs ++ ds)
    rw [h, ← List.append_assoc, ← List.cons_append] at hall
    exact List.append_cancel_right hall
  by_cases htwo : ∃ kind tail, withEqual? c = some kind ∧ cs ++ ds = '=' :: tail
  · obtain ⟨kind, tail, hc, hds⟩ := htwo
    rw [hds, munchSymbol_twofold hc] at htext ⊢
    obtain rfl : cs = '=' :: rest := (List.cons.inj htext).2.symm
    exact munchSymbol_twofold hc rest
  · have hone : ∀ kind tail, withEqual? c = some kind → cs ++ ds ≠ '=' :: tail :=
      fun kind tail hc hds => htwo ⟨kind, tail, hc, hds⟩
    rw [munchSymbol_single hone] at htext ⊢
    obtain rfl : rest = cs := (List.cons.inj htext).2
    exact munchSymbol_single fun kind tail hc hcs =>
      hone kind (tail ++ ds) hc (by rw [hcs, List.cons_append])

/-- The longest token does not depend on the text behind it. -/
theorem munch_cut {c : Char} (h : (munch c (cs ++ ds)).rest = rest ++ ds) :
    munch c cs = ⟨(munch c (cs ++ ds)).kind, (munch c (cs ++ ds)).lexeme, rest⟩ := by
  unfold munch at h ⊢
  split at h
  · rename_i hname
    obtain ⟨htake, hdrop⟩ := span_cut h
    rw [if_pos hname, if_pos hname, htake, hdrop]
  · rename_i hname
    rw [if_neg hname, if_neg hname]
    split at h
    · rename_i hdigit
      -- What is dropped before the fraction ends in `ds` as well.
      have hdrop : (cs ++ ds).dropWhile Char.isDigit =
          ((fraction ((cs ++ ds).dropWhile Char.isDigit)).1 ++ rest) ++ ds := by
        rw [List.append_assoc, ← h, fraction_append]
      obtain ⟨htake, hcut⟩ := span_cut hdrop
      rw [if_pos hdigit, if_pos hdigit]
      rw [hdrop] at h
      have hfraction := fraction_cut h
      rw [← hdrop, ← hcut] at hfraction
      rw [htake, hfraction]
    · rename_i hdigit
      rw [if_neg hdigit, if_neg hdigit]
      split at h
      · rename_i hnil
        -- What is no fraction is none with less text behind it.
        have hcut : fraction (c :: cs) = ([], c :: cs) := by
          have hall := fraction_append (c :: (cs ++ ds))
          rw [hnil, List.nil_append] at hall
          have hrest : (fraction (c :: cs ++ ds)).2 = c :: cs ++ ds := hall
          exact hnil ▸ fraction_cut hrest
        rw [if_pos hnil, if_pos (congrArg Prod.fst hcut)]
        exact munchSymbol_cut h
      · rename_i hfraction
        have hcut : fraction (c :: cs) = ((fraction (c :: (cs ++ ds))).1, rest) := fraction_cut h
        rw [if_neg hfraction, hcut, if_neg hfraction]

end

/-! ## What a text says -/

/-- What the tokens of characters say. -/
def wordsOf (text : List Char) : List (Kind × String) :=
  (scanFrom 0 0 text).map word

/-- Where a text begins makes no difference to what it says. -/
theorem map_word_scanFrom (offset line : Nat) (text : List Char) :
    (scanFrom offset line text).map word = wordsOf text := by
  have hshift := scanFrom_shift offset line 0 0 text
  rw [Nat.zero_add, Nat.zero_add] at hshift
  rw [hshift, List.map_map]
  rfl

theorem words_eq (source : String) : words source = wordsOf source.toList :=
  map_word_scanFrom 0 1 source.toList

theorem wordsOf_nil : wordsOf [] = [] := by
  rw [wordsOf, scanFrom, List.map_nil]

theorem wordsOf_newline (cs : List Char) : wordsOf ('\n' :: cs) = wordsOf cs := by
  rw [wordsOf, scanFrom, if_pos rfl, map_word_scanFrom]

theorem wordsOf_blank {c : Char} (hc : isBlank c = true) (cs : List Char) :
    wordsOf (c :: cs) = wordsOf cs := by
  have hne : c ≠ '\n' := by
    rintro rfl
    cases hc
  rw [wordsOf, scanFrom, if_neg hne, if_pos hc, map_word_scanFrom]

theorem wordsOf_comment (cs : List Char) :
    wordsOf ('#' :: cs) = wordsOf (cs.dropWhile (· ≠ '\n')) := by
  rw [wordsOf, scanFrom, if_neg (by decide), if_neg (by decide), if_pos rfl, map_word_scanFrom]

theorem wordsOf_comment_newline {comment : List Char} (h : '\n' ∉ comment) (cs : List Char) :
    wordsOf ('#' :: (comment ++ '\n' :: cs)) = wordsOf cs := by
  have hall : ∀ c ∈ comment, decide (c ≠ '\n') = true := fun c hc =>
    decide_eq_true fun he => h (he ▸ hc)
  rw [wordsOf_comment, List.dropWhile_append_of_pos hall, List.dropWhile_cons_of_neg (by decide),
    wordsOf_newline]

theorem wordsOf_munch {c : Char} (hc : c ≠ '\n') (hblank : ¬isBlank c = true) (hsign : c ≠ '#')
    (cs : List Char) :
    wordsOf (c :: cs) =
      ((munch c cs).kind, String.ofList (munch c cs).lexeme) :: wordsOf (munch c cs).rest := by
  rw [wordsOf, scanFrom, if_neg hc, if_neg hblank, if_neg hsign, List.map_cons, map_word_scanFrom]
  rfl

/-- The text opens with no character that goes on a token. -/
def Apart : List Char → Prop
  | [] => True
  | x :: _ => Separates x

theorem munch_apart {ds : List Char} (hds : Apart ds) (c : Char) (cs : List Char) :
    munch c (cs ++ ds) = ⟨(munch c cs).kind, (munch c cs).lexeme, (munch c cs).rest ++ ds⟩ := by
  cases ds with
  | nil => rw [List.append_nil, List.append_nil]
  | cons x ds => exact munch_before hds c cs

/-! ## Spacing in front -/

theorem wordsOf_spacing {gap : List Char} (hgap : Spacing gap) (ds : List Char) :
    wordsOf (gap ++ ds) = wordsOf ds := by
  induction hgap with
  | none => rfl
  | blank hc _ ih => rw [List.cons_append, wordsOf_blank hc, ih]
  | newline _ ih => rw [List.cons_append, wordsOf_newline, ih]
  | @comment text cs htext _ ih =>
      rw [List.cons_append, List.append_assoc, List.cons_append, wordsOf_comment_newline htext, ih]

/-- Spacing goes on no token. -/
theorem apart_spacing {gap : List Char} (hgap : Spacing gap) (hne : gap ≠ []) (ds : List Char) :
    Apart (gap ++ ds) := by
  cases hgap with
  | none => exact absurd rfl hne
  | @blank c cs hc _ =>
      simp only [isBlank, Bool.or_eq_true, decide_eq_true_eq] at hc
      rcases hc with (rfl | rfl) | rfl <;> constructor <;> decide
  | newline _ => exact separates_newline
  | comment _ _ => constructor <;> decide

/-! ## Spacing where a token begins or ends -/

/-- A comment that does not go on to the end of the text is ended by a line
feed. -/
theorem exists_ended {cs : List Char} (h : cs.dropWhile (· ≠ '\n') ≠ []) :
    ∃ comment rest, '\n' ∉ comment ∧ cs = comment ++ '\n' :: rest ∧
      cs.takeWhile (· ≠ '\n') = comment ∧ cs.dropWhile (· ≠ '\n') = '\n' :: rest := by
  have hcs := List.takeWhile_append_dropWhile (p := (· ≠ '\n')) (l := cs)
  cases hdrop : cs.dropWhile (· ≠ '\n') with
  | nil => exact absurd hdrop h
  | cons c rest =>
      have hc : c = '\n' := by
        have hnot := List.head?_dropWhile_not (· ≠ '\n') cs
        rw [hdrop] at hnot
        simpa using hnot
      subst hc
      rw [hdrop] at hcs
      exact ⟨_, rest, notMem_takeWhile (by decide) cs, hcs.symm, rfl, rfl⟩

/-- A place of a token behind a comment is behind the line feed that ends it. -/
theorem exists_ended_of_mem {start line : Nat} {cs ds : List Char} {t : Token}
    (ht : t ∈ scanFrom (start + byteLength ((cs ++ ds).takeWhile (· ≠ '\n'))) line
      ((cs ++ ds).dropWhile (· ≠ '\n')))
    (hplace : start + byteLength cs = t.span.start ∨ start + byteLength cs = t.span.stop) :
    ∃ comment es, '\n' ∉ comment ∧ cs = comment ++ '\n' :: es ∧
      (cs ++ ds).takeWhile (· ≠ '\n') = comment ∧
      (cs ++ ds).dropWhile (· ≠ '\n') = '\n' :: (es ++ ds) := by
  have hends : (cs ++ ds).dropWhile (· ≠ '\n') ≠ [] := by
    intro hnil
    rw [hnil, scanFrom] at ht
    cases ht
  obtain ⟨comment, rest, hcomment, htext, htake, hdrop⟩ := exists_ended hends
  have hbytes : byteLength (comment ++ ['\n']) ≤ byteLength cs := by
    have hlength : byteLength ['\n'] = 1 := by decide
    rw [htake, hdrop, scanFrom, if_pos rfl] at ht
    have hbehind := span_of_mem_scanFrom ht
    rw [byteLength_append, hlength]
    omega
  obtain ⟨es, rfl, rfl⟩ := prefix_of_byteLength_le
    ((List.append_cons comment '\n' rest).symm.trans htext.symm) hbytes
  exact ⟨comment, es, hcomment, (List.append_cons ..).symm, htake, hdrop⟩

/-- A token is the same if spacing comes in behind it. -/
theorem munch_insert {gap : List Char} (hgap : Spacing gap) (hne : gap ≠ []) {c : Char}
    {cs ds : List Char} (h : byteLength (munch c (cs ++ ds)).lexeme ≤ byteLength (c :: cs)) :
    ∃ es, c :: cs = (munch c (cs ++ ds)).lexeme ++ es ∧ (munch c (cs ++ ds)).rest = es ++ ds ∧
      munch c (cs ++ (gap ++ ds)) =
        ⟨(munch c (cs ++ ds)).kind, (munch c (cs ++ ds)).lexeme, es ++ (gap ++ ds)⟩ := by
  obtain ⟨es, hcs, hrest⟩ := prefix_of_byteLength_le
    ((munch_append c (cs ++ ds)).trans (List.cons_append ..).symm) h
  refine ⟨es, hcs, hrest, ?_⟩
  rw [munch_apart (apart_spacing hgap hne ds), munch_cut hrest]

/-- Spacing can be put in where a token begins or ends. -/
theorem wordsOf_insert {gap : List Char} (hgap : Spacing gap) (hne : gap ≠ [])
    (offset line : Nat) (cs ds : List Char)
    (h : ∃ t ∈ scanFrom offset line (cs ++ ds),
      offset + byteLength cs = t.span.start ∨ offset + byteLength cs = t.span.stop) :
    wordsOf (cs ++ (gap ++ ds)) = wordsOf (cs ++ ds) := by
  generalize htext : cs ++ ds = text at h
  obtain ⟨t, ht, hplace⟩ := h
  fun_induction scanFrom offset line text generalizing cs with
  | case1 => cases ht
  | case2 offset line text ih =>
      rcases List.append_eq_cons_iff.mp htext with ⟨rfl, rfl⟩ | ⟨cs, rfl, rfl⟩
      · exact wordsOf_spacing hgap _
      · have hsize : ('\n').utf8Size = 1 := by decide
        rw [byteLength, hsize, ← Nat.add_assoc] at hplace
        rw [List.cons_append, wordsOf_newline, wordsOf_newline]
        exact ih cs rfl ht hplace
  | case3 offset line c text hc hblank ih =>
      rcases List.append_eq_cons_iff.mp htext with ⟨rfl, rfl⟩ | ⟨cs, rfl, rfl⟩
      · exact wordsOf_spacing hgap _
      · have hsize : c.utf8Size = 1 := by
          simp only [isBlank, Bool.or_eq_true, decide_eq_true_eq] at hblank
          rcases hblank with (rfl | rfl) | rfl <;> decide
        rw [byteLength, hsize, ← Nat.add_assoc] at hplace
        rw [List.cons_append, wordsOf_blank hblank, wordsOf_blank hblank]
        exact ih cs rfl ht hplace
  | case4 offset line text hc hblank ih =>
      rcases List.append_eq_cons_iff.mp htext with ⟨rfl, rfl⟩ | ⟨cs, rfl, rfl⟩
      · exact wordsOf_spacing hgap _
      · have hsize : ('#').utf8Size = 1 := by decide
        rw [byteLength, hsize, ← Nat.add_assoc] at hplace
        obtain ⟨comment, es, hcomment, rfl, htake, hdrop⟩ := exists_ended_of_mem ht hplace
        rw [htake, hdrop] at ht ih
        rw [byteLength_append, ← Nat.add_assoc] at hplace
        rw [List.cons_append, List.append_assoc, List.append_assoc,
          List.cons_append, List.cons_append, wordsOf_comment_newline hcomment,
          wordsOf_comment_newline hcomment, ← wordsOf_newline, ← wordsOf_newline (es ++ ds)]
        exact ih ('\n' :: es) rfl ht hplace
  | case5 offset line c text hc hblank hsign ih =>
      rcases List.append_eq_cons_iff.mp htext with ⟨rfl, rfl⟩ | ⟨cs, rfl, rfl⟩
      · exact wordsOf_spacing hgap _
      · have hbytes : byteLength (munch c (cs ++ ds)).lexeme ≤ byteLength (c :: cs) := by
          have hpos : 0 < byteLength (c :: cs) := byteLength_pos (List.cons_ne_nil c cs)
          rcases List.mem_cons.mp ht with rfl | ht
          · simp only at hplace
            omega
          · have hbehind := span_of_mem_scanFrom ht
            omega
        obtain ⟨es, hcs, hrest, hwhole⟩ := munch_insert hgap hne hbytes
        have hbehind : wordsOf (es ++ (gap ++ ds)) = wordsOf (es ++ ds) := by
          rcases List.mem_cons.mp ht with rfl | ht
          · have hes : byteLength es = 0 := by
              rw [hcs, byteLength_append] at hplace
              have hpos := byteLength_pos (munch_lexeme_ne_nil c (cs ++ ds))
              simp only at hplace
              omega
            cases es with
            | nil => exact wordsOf_spacing hgap ds
            | cons e es =>
                have hpos := byteLength_pos (List.cons_ne_nil e es)
                omega
          · rw [hcs, byteLength_append, ← Nat.add_assoc] at hplace
            exact hrest ▸ ih es hrest.symm ht hplace
        rw [List.cons_append, wordsOf_munch hc hblank hsign, wordsOf_munch hc hblank hsign, hwhole,
          hbehind, hrest]

/-! ## Spacing behind -/

/-- What a comment leaves of spacing is spacing. -/
theorem spacing_dropWhile {gap : List Char} (h : Spacing gap) :
    Spacing (gap.dropWhile (· ≠ '\n')) := by
  induction h with
  | none => exact .none
  | @blank c cs hc _ ih =>
      have hne : c ≠ '\n' := by
        rintro rfl
        cases hc
      rwa [List.dropWhile_cons_of_pos (by simp [hne])]
  | newline h _ =>
      rw [List.dropWhile_cons_of_neg (by decide)]
      exact .newline h
  | @comment text cs htext h _ =>
      have hall : ∀ c ∈ '#' :: text, decide (c ≠ '\n') = true := by
        intro c hc
        rcases List.mem_cons.mp hc with rfl | hc
        · decide
        · exact decide_eq_true fun he => htext (he ▸ hc)
      rw [← List.cons_append, List.dropWhile_append_of_pos hall,
        List.dropWhile_cons_of_neg (by decide)]
      exact .newline h

theorem scanFrom_spacing {gap : List Char} (hgap : Spacing gap) (offset line : Nat) :
    scanFrom offset line gap = [] := by
  have hwords : wordsOf gap = [] := by
    rw [← List.append_nil gap, wordsOf_spacing hgap, wordsOf_nil]
  rw [← map_word_scanFrom offset line] at hwords
  exact List.map_eq_nil_iff.mp hwords

/-- Spacing behind a text adds nothing to its tokens. -/
theorem scanFrom_behind {gap : List Char} (hgap : Spacing gap) (hne : gap ≠ [])
    (offset line : Nat) (cs : List Char) :
    scanFrom offset line (cs ++ gap) = scanFrom offset line cs := by
  fun_induction scanFrom offset line cs with
  | case1 offset line => exact scanFrom_spacing hgap offset line
  | case2 offset line cs ih => rw [List.cons_append, scanFrom, if_pos rfl, ih]
  | case3 offset line c cs hc hblank ih =>
      rw [List.cons_append, scanFrom, if_neg hc, if_pos hblank, ih]
  | case4 offset line cs hc hblank ih =>
      rw [List.cons_append, scanFrom, if_neg hc, if_neg hblank, if_pos rfl]
      by_cases hends : cs.dropWhile (· ≠ '\n') = []
      · -- The comment goes on into the spacing.
        have hdrop : (cs ++ gap).dropWhile (· ≠ '\n') = gap.dropWhile (· ≠ '\n') := by
          rw [List.dropWhile_append, hends]
          rfl
        rw [hdrop, hends, scanFrom_spacing (spacing_dropWhile hgap), scanFrom]
      · obtain ⟨comment, rest, -, rfl, -, -⟩ := exists_ended hends
        have htake : ∀ tail, (comment ++ '\n' :: tail).takeWhile (· ≠ '\n') =
            comment.takeWhile (· ≠ '\n') := fun _ => takeWhile_before (by decide) comment
        have hdrop : ∀ tail, (comment ++ '\n' :: tail).dropWhile (· ≠ '\n') =
            comment.dropWhile (· ≠ '\n') ++ '\n' :: tail :=
          fun _ => dropWhile_before (by decide) comment
        rw [htake, hdrop, List.append_assoc, List.cons_append] at ih
        rw [List.append_assoc, List.cons_append, htake, hdrop, htake, hdrop]
        exact ih
  | case5 offset line c cs hc hblank hsign ih =>
      have happart : Apart gap := by
        have happart := apart_spacing hgap hne []
        rwa [List.append_nil] at happart
      rw [List.cons_append, scanFrom, if_neg hc, if_neg hblank, if_neg hsign,
        munch_apart happart, ih]

theorem words_insert {before gap after : String} (h : Boundary before after)
    (hgap : Spacing gap.toList) : words (before ++ gap ++ after) = words (before ++ after) := by
  by_cases hne : gap.toList = []
  · rw [String.toList_eq_nil_iff.mp hne, String.append_empty]
  · obtain ⟨t, ht, hplace⟩ := h
    rw [utf8ByteSize_eq, ← Nat.zero_add (byteLength _)] at hplace
    rw [words_eq, words_eq, String.toList_append, String.toList_append, String.toList_append,
      List.append_assoc]
    rcases List.mem_append.mp ht with ht | ht
    · rw [scan, String.toList_append] at ht
      exact wordsOf_insert hgap hne 0 1 _ _ ⟨t, ht, hplace⟩
    · have hend : after.toList = [] := by
        obtain rfl := List.mem_singleton.mp ht
        simp only [endOf, or_self, Nat.zero_add, utf8ByteSize_eq, String.toList_append,
          byteLength_append] at hplace
        cases hafter : after.toList with
        | nil => rfl
        | cons c cs =>
            have hpos := byteLength_pos (List.cons_ne_nil c cs)
            rw [hafter] at hplace
            omega
      rw [hend, List.append_nil, List.append_nil, ← map_word_scanFrom 0 0,
        scanFrom_behind hgap hne, map_word_scanFrom]

/-! ## Lexemes with blanks between them -/

/-- A lexeme on its own is one token. -/
theorem munch_lexeme (c : Char) (cs : List Char) :
    ∃ ls, (munch c cs).lexeme = c :: ls ∧
      munch c ls = ⟨(munch c cs).kind, (munch c cs).lexeme, []⟩ := by
  obtain ⟨hnil, -⟩ | ⟨ls, hlexeme, hrest⟩ := List.append_eq_cons_iff.mp (munch_append c cs)
  · exact absurd hnil (munch_lexeme_ne_nil c cs)
  · refine ⟨ls, hlexeme, ?_⟩
    have hcut : (munch c (ls ++ (munch c cs).rest)).rest = [] ++ (munch c cs).rest := by
      rw [← hrest, List.nil_append]
    rw [munch_cut hcut, ← hrest]

/-- The lexeme of a token reads as that token. -/
theorem wordsOf_lexeme {offset line : Nat} {text : List Char} {t : Token}
    (ht : t ∈ scanFrom offset line text) {ds : List Char} (hds : Apart ds) :
    wordsOf (t.lexeme.toList ++ ds) = word t :: wordsOf ds := by
  fun_induction scanFrom offset line text with
  | case1 => cases ht
  | case2 _ _ _ ih => exact ih ht
  | case3 _ _ _ _ _ _ ih => exact ih ht
  | case4 _ _ _ _ _ ih => exact ih ht
  | case5 offset line c cs hc hblank hsign ih =>
      rcases List.mem_cons.mp ht with rfl | ht
      · obtain ⟨ls, hlexeme, hmunch⟩ := munch_lexeme c cs
        have htext : (String.ofList (munch c cs).lexeme).toList = c :: ls := by
          rw [String.toList_ofList, hlexeme]
        rw [htext, List.cons_append, wordsOf_munch hc hblank hsign, munch_apart hds, hmunch]
        rfl
      · exact ih ht

theorem apart_blank (ds : List Char) : Apart (' ' :: ds) := by
  constructor <;> decide

/-- Lexemes with single blanks between them read as their tokens. -/
theorem words_spaced (source : String) :
    words (" ".intercalate ((scan source).map (·.lexeme))) = words source := by
  have key : ∀ tokens ⊆ scan source,
      wordsOf (" ".intercalate (tokens.map (·.lexeme))).toList = tokens.map word := by
    intro tokens hsub
    induction tokens with
    | nil => exact wordsOf_nil
    | cons t rest ih =>
        have ht := hsub List.mem_cons_self
        cases rest with
        | nil =>
            rw [List.map_singleton, String.intercalate_singleton]
            have hlast := wordsOf_lexeme ht (show Apart [] from trivial)
            rwa [List.append_nil, wordsOf_nil] at hlast
        | cons u rest =>
            have hrest := ih fun v hv => hsub (List.mem_cons_of_mem t hv)
            rw [List.map_cons, List.map_cons, String.intercalate_cons_cons, String.toList_append,
              String.toList_append, List.append_assoc, show (" ").toList = [' '] from rfl,
              List.singleton_append, wordsOf_lexeme ht (apart_blank _), wordsOf_blank rfl,
              ← List.map_cons, hrest]
            rfl
  rw [words_eq, key _ (List.Subset.refl _)]
  rfl

end Pixelwise.Token
