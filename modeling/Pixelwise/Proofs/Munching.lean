/-
Munching — the longest word at the front of a text.

A word that stands alone is taken whole and is of one kind only
(`munch_word`), so the classes of words have nothing in common.  A word at
the front of a longer text is no longer than what is taken there: otherwise
what is taken would be taken of the word alone as well (`munch_cut`).

Main statement: `takes_iff`, that `munch` takes the longest word.
-/
import Mathlib.Data.List.TakeWhile
import Pixelwise.Token.Lexicon
import Pixelwise.Proofs.Spacing

open Computability

namespace Pixelwise.Token

/-! ## The languages of letters and digits -/

theorem mem_one_kstar {p : Char → Bool} {w : List Char} :
    w ∈ (one p)∗ ↔ ∀ c ∈ w, p c = true := by
  constructor
  · rintro ⟨parts, rfl, hparts⟩ c hc
    obtain ⟨part, hpart, hc⟩ := List.mem_flatten.mp hc
    obtain ⟨d, hd, rfl⟩ := hparts part hpart
    exact List.mem_singleton.mp hc ▸ hd
  · intro h
    refine ⟨w.map ([·]), (List.flatMap_singleton' w).symm.trans List.flatMap_def, ?_⟩
    intro part hpart
    obtain ⟨c, hc, rfl⟩ := List.mem_map.mp hpart
    exact ⟨c, h c hc, rfl⟩

/-- A character of the one class and then characters of the other. -/
theorem cons_mem_one_mul {p q : Char → Bool} {c : Char} {cs : List Char} :
    c :: cs ∈ one p * (one q)∗ ↔ p c = true ∧ ∀ d ∈ cs, q d = true := by
  rw [Language.mem_mul]
  constructor
  · rintro ⟨_, ⟨d, hd, rfl⟩, ds, hds, htext⟩
    obtain ⟨rfl, rfl⟩ := List.cons.inj htext
    exact ⟨hd, mem_one_kstar.mp hds⟩
  · rintro ⟨hc, hcs⟩
    exact ⟨[c], ⟨c, hc, rfl⟩, cs, mem_one_kstar.mpr hcs, rfl⟩

theorem letter_add_digit : letter + digit = one isNamePart := by
  ext w
  constructor
  · rintro (⟨c, hc, rfl⟩ | ⟨c, hc, rfl⟩)
    · exact ⟨c, Bool.or_eq_true_iff.mpr (Or.inl hc), rfl⟩
    · exact ⟨c, Bool.or_eq_true_iff.mpr (Or.inr hc), rfl⟩
  · rintro ⟨c, hc, rfl⟩
    rcases Bool.or_eq_true_iff.mp hc with hc | hc
    · exact Or.inl ⟨c, hc, rfl⟩
    · exact Or.inr ⟨c, hc, rfl⟩

theorem cons_mem_identifier {c : Char} {cs : List Char} :
    c :: cs ∈ Kind.identifier.lexemes ↔
      isNameStart c = true ∧ ∀ d ∈ cs, isNamePart d = true := by
  show c :: cs ∈ letter * (letter + digit)∗ ↔ _
  rw [letter_add_digit]
  exact cons_mem_one_mul

theorem cons_mem_digits {c : Char} {cs : List Char} :
    c :: cs ∈ digits ↔ c.isDigit = true ∧ ∀ d ∈ cs, d.isDigit = true :=
  cons_mem_one_mul

theorem nil_notMem_digits : [] ∉ digits := by
  rintro ⟨_, ⟨c, -, rfl⟩, cs, -, htext⟩
  cases htext

/-- A fraction that goes on to the end of the text. -/
theorem fraction_whole {cs : List Char} (h : cs ∈ 1 + {['.']} * digits) :
    fraction cs = (cs, []) := by
  rcases h with hnil | ⟨_, rfl, es, hes, rfl⟩
  · obtain rfl := (Language.mem_one cs).mp hnil
    simp [fraction]
  · cases es with
    | nil => exact absurd hes nil_notMem_digits
    | cons e es =>
        obtain ⟨he, hes⟩ := cons_mem_digits.mp hes
        simp only [List.cons_append, List.nil_append, fraction, if_pos he]
        rw [List.takeWhile_eq_self_iff.mpr hes, List.dropWhile_eq_nil_iff.mpr hes]

/-- The fraction of a number is none, or a point and digits. -/
theorem fraction_mem (cs : List Char) : (fraction cs).1 ∈ 1 + {['.']} * digits := by
  unfold fraction
  split
  · rename_i d cs
    split
    · rename_i hd
      refine Or.inr ⟨['.'], rfl, d :: cs.takeWhile Char.isDigit, ?_, rfl⟩
      exact cons_mem_digits.mpr ⟨hd, fun e he => List.all_eq_true.mp List.all_takeWhile e he⟩
    · exact Or.inl rfl
  · exact Or.inl rfl

/-! ## A word that stands alone -/

theorem munch_identifier {c : Char} {cs : List Char} (h : c :: cs ∈ Kind.identifier.lexemes) :
    munch c cs = ⟨.identifier, c :: cs, []⟩ := by
  obtain ⟨hc, hcs⟩ := cons_mem_identifier.mp h
  rw [munch, if_pos hc, List.takeWhile_eq_self_iff.mpr hcs, List.dropWhile_eq_nil_iff.mpr hcs]

theorem not_isNameStart_of_isDigit {c : Char} (h : c.isDigit = true) : ¬isNameStart c = true := by
  have hrange := Char.isDigit_iff_toNat.mp h
  intro hname
  simp only [isNameStart, Bool.or_eq_true, decide_eq_true_eq] at hname
  rcases hname with (halpha | rfl) | rfl
  · change (decide ('A'.val ≤ c.val ∧ c.val ≤ 'Z'.val) ||
      (decide ('a'.val ≤ c.val) && decide (c.val ≤ 'z'.val))) = true at halpha
    simp only [Bool.or_eq_true, Bool.and_eq_true, decide_eq_true_eq,
      UInt32.le_iff_toNat_le] at halpha
    have hval : c.toNat = c.val.toNat := rfl
    have hupper : 'A'.val.toNat = 65 := rfl
    have hlower : 'a'.val.toNat = 97 := rfl
    have hnine : '9'.toNat = 57 := rfl
    omega
  · cases h
  · cases h

theorem munch_number {c : Char} {cs : List Char} (h : c :: cs ∈ Kind.number.lexemes) :
    munch c cs = ⟨.number, c :: cs, []⟩ := by
  rcases h with ⟨ds, hds, es, hes, htext⟩ | ⟨_, rfl, es, hes, htext⟩
  · cases ds with
    | nil => exact absurd hds nil_notMem_digits
    | cons d ds =>
        obtain ⟨rfl, rfl⟩ := List.cons.inj htext
        obtain ⟨hd, hds⟩ := cons_mem_digits.mp hds
        have hstop : es.takeWhile Char.isDigit = [] ∧ es.dropWhile Char.isDigit = es := by
          rcases hes with hnil | ⟨_, rfl, fs, -, rfl⟩
          · obtain rfl := (Language.mem_one es).mp hnil
            exact ⟨rfl, rfl⟩
          · exact ⟨rfl, rfl⟩
        have htake : (ds ++ es).takeWhile Char.isDigit = ds := by
          rw [List.takeWhile_append_of_pos hds, hstop.1, List.append_nil]
        have hdrop : (ds ++ es).dropWhile Char.isDigit = es := by
          rw [List.dropWhile_append_of_pos hds, hstop.2]
        rw [munch, if_neg (not_isNameStart_of_isDigit hd), if_pos hd]
        rw [show ds.append es = ds ++ es from rfl, htake, hdrop, fraction_whole hes]
        rfl
  · obtain ⟨rfl, rfl⟩ := List.cons.inj htext
    have hwhole := fraction_whole (Or.inr ⟨['.'], rfl, es, hes, rfl⟩)
    have htext : '.' :: [].append es = ['.'] ++ es := rfl
    rw [munch, if_neg (by decide), if_neg (by decide), htext, hwhole]
    rfl

/-- A word that stands alone is taken whole. -/
theorem munch_word {kind : Kind} {c : Char} {cs : List Char} (h : c :: cs ∈ kind.lexemes) :
    munch c cs = ⟨kind, c :: cs, []⟩ := by
  cases kind with
  | identifier => exact munch_identifier h
  | number => exact munch_number h
  | unexpected => exact absurd h (Language.notMem_zero _)
  | endOfInput => exact absurd h (Language.notMem_zero _)
  | _ =>
      cases h
      rfl

theorem nil_notMem_lexemes (kind : Kind) : [] ∉ kind.lexemes := by
  intro h
  cases kind with
  | identifier =>
      obtain ⟨_, ⟨c, -, rfl⟩, cs, -, htext⟩ := h
      cases htext
  | number =>
      rcases h with ⟨ds, hds, es, -, htext⟩ | ⟨_, rfl, es, -, htext⟩
      · obtain ⟨rfl, -⟩ := List.append_eq_nil_iff.mp htext
        exact nil_notMem_digits hds
      · cases htext
  | unexpected => exact Language.notMem_zero _ h
  | endOfInput => exact Language.notMem_zero _ h
  | _ => cases h

/-- A word is of one kind only. -/
theorem Kind.eq_of_mem_lexemes {kind other : Kind} {word : List Char} (h : word ∈ kind.lexemes)
    (h' : word ∈ other.lexemes) : kind = other := by
  cases word with
  | nil => exact absurd h (nil_notMem_lexemes kind)
  | cons c cs => exact (Munch.mk.inj ((munch_word h).symm.trans (munch_word h'))).1

/-! ## What is taken is a word -/

theorem alone_mem (c : Char) : alone c = .unexpected c ∨ [c] ∈ (alone c).lexemes := by
  unfold alone
  split <;> first | exact Or.inr rfl | exact Or.inl rfl

theorem munchSymbol_mem (c : Char) (cs : List Char) :
    ((munchSymbol c cs).kind = .unexpected c ∧ (munchSymbol c cs).lexeme = [c]) ∨
      (munchSymbol c cs).lexeme ∈ (munchSymbol c cs).kind.lexemes := by
  unfold munchSymbol
  split
  · rename_i kind rest htwo
    right
    unfold withEqual? at htwo
    split at htwo <;> cases htwo <;> rfl
  · rcases alone_mem c with halone | halone
    · exact Or.inl ⟨halone, rfl⟩
    · exact Or.inr halone

/-- What is taken is a word of its kind, or one unexpected character. -/
theorem munch_mem (c : Char) (cs : List Char) :
    ((munch c cs).kind = .unexpected c ∧ (munch c cs).lexeme = [c]) ∨
      (munch c cs).lexeme ∈ (munch c cs).kind.lexemes := by
  unfold munch
  split
  · rename_i hname
    right
    exact cons_mem_identifier.mpr
      ⟨hname, fun d hd => List.all_eq_true.mp List.all_takeWhile d hd⟩
  · split
    · rename_i hdigit
      right
      left
      have hds : c :: cs.takeWhile Char.isDigit ∈ digits :=
        cons_mem_digits.mpr ⟨hdigit, fun d hd => List.all_eq_true.mp List.all_takeWhile d hd⟩
      exact Language.append_mem_mul hds (fraction_mem _)
    · split
      · exact munchSymbol_mem c cs
      · rename_i hne
        right
        right
        exact (fraction_mem (c :: cs)).resolve_left hne

/-! ## The longest word -/

section

variable {kind : Kind} {c : Char} {cs ws ds : List Char}

theorem exists_of_prefix {word : List Char} (hmem : word ∈ kind.lexemes)
    (hfront : word <+: c :: cs) : ∃ ws ds, word = c :: ws ∧ cs = ws ++ ds := by
  obtain ⟨ds, htext⟩ := hfront
  rcases List.append_eq_cons_iff.mp htext with ⟨rfl, -⟩ | ⟨ws, hword, hcs⟩
  · exact absurd hmem (nil_notMem_lexemes kind)
  · exact ⟨ws, ds, hword, hcs⟩

/-- A word at the front of a text is no longer than what is taken there. -/
theorem length_le_munch (h : c :: ws ∈ kind.lexemes) (ds : List Char) :
    (c :: ws).length ≤ (munch c (ws ++ ds)).lexeme.length := by
  have hsplit : (munch c (ws ++ ds)).lexeme ++ (munch c (ws ++ ds)).rest = c :: ws ++ ds :=
    munch_append c (ws ++ ds)
  rcases List.append_eq_append_iff.mp hsplit with ⟨es, hword, hrest⟩ | ⟨es, hlexeme, -⟩
  · -- If less than the word is taken, then less is taken of the word alone.
    have halone := munch_cut hrest
    rw [munch_word h] at halone
    exact Nat.le_of_eq (congrArg List.length (Munch.mk.inj halone).2.1)
  · rw [hlexeme, List.length_append]
    exact Nat.le_add_right _ _

/-- Where a word begins, what is taken is a word. -/
theorem munch_mem_of_word (h : c :: ws ∈ kind.lexemes) (ds : List Char) :
    (munch c (ws ++ ds)).lexeme ∈ (munch c (ws ++ ds)).kind.lexemes := by
  rcases munch_mem c (ws ++ ds) with ⟨-, hlexeme⟩ | hmem
  · -- The word is the one character that is taken.
    have hlength := length_le_munch h ds
    rw [hlexeme] at hlength
    have hzero : ws.length = 0 := Nat.le_zero.mp (Nat.le_of_succ_le_succ hlength)
    obtain rfl := List.length_eq_zero_iff.mp hzero
    have hrest : (munch c ([] ++ ds)).rest = [] ++ ds := by
      have hsplit := munch_append c ([] ++ ds)
      rw [hlexeme] at hsplit
      exact (List.cons.inj hsplit).2
    have halone := munch_cut hrest
    rw [munch_word h] at halone
    obtain ⟨hkind, hword, -⟩ := Munch.mk.inj halone
    rw [← hkind, ← hword]
    exact h
  · exact hmem

end

theorem takes_munch (c : Char) (cs : List Char) :
    Takes (munch c cs).kind (munch c cs).lexeme (munch c cs).rest := by
  by_cases hword : (munch c cs).lexeme ∈ (munch c cs).kind.lexemes
  · refine .longest hword fun other word hprefix hmem => ?_
    rw [munch_append] at hprefix
    obtain ⟨ws, ds, rfl, rfl⟩ := exists_of_prefix hmem hprefix
    exact length_le_munch hmem ds
  · obtain ⟨hkind, hlexeme⟩ := (munch_mem c cs).resolve_right hword
    have hrest : (munch c cs).rest = cs := by
      have hsplit := munch_append c cs
      rw [hlexeme] at hsplit
      exact (List.cons.inj hsplit).2
    rw [hkind, hlexeme, hrest]
    refine .unexpected fun other word hprefix hmem => ?_
    obtain ⟨ws, ds, rfl, rfl⟩ := exists_of_prefix hmem hprefix
    exact hword (munch_mem_of_word hmem ds)

theorem Takes.ne_nil {kind : Kind} {lexeme rest : List Char} (h : Takes kind lexeme rest) :
    lexeme ≠ [] := by
  cases h with
  | longest hword _ => exact fun hnil => nil_notMem_lexemes kind (hnil ▸ hword)
  | unexpected _ => exact List.cons_ne_nil _ _

/-- There is one token at the front of a text. -/
theorem Takes.unique {kind kind' : Kind} {lexeme lexeme' rest rest' : List Char}
    (h : Takes kind lexeme rest) (h' : Takes kind' lexeme' rest')
    (htext : lexeme ++ rest = lexeme' ++ rest') :
    kind = kind' ∧ lexeme = lexeme' ∧ rest = rest' := by
  cases h with
  | longest hmem hlongest =>
      cases h' with
      | longest hmem' hlongest' =>
          have hle := hlongest kind' lexeme' ⟨rest', htext.symm⟩ hmem'
          have hge := hlongest' kind lexeme ⟨rest, htext⟩ hmem
          obtain ⟨rfl, rfl⟩ := List.append_inj htext (Nat.le_antisymm hge hle)
          exact ⟨Kind.eq_of_mem_lexemes hmem hmem', rfl, rfl⟩
      | unexpected hnone => exact absurd hmem (hnone kind lexeme ⟨rest, htext⟩)
  | unexpected hnone =>
      cases h' with
      | longest hmem' _ => exact absurd hmem' (hnone kind' lexeme' ⟨rest', htext.symm⟩)
      | unexpected _ =>
          obtain ⟨rfl, rfl⟩ := List.cons.inj htext
          exact ⟨rfl, rfl, rfl⟩

/-- The token at the front of a text is the one that is taken. -/
theorem takes_iff {kind : Kind} {c : Char} {cs lexeme rest : List Char}
    (htext : lexeme ++ rest = c :: cs) :
    Takes kind lexeme rest ↔ munch c cs = ⟨kind, lexeme, rest⟩ := by
  constructor
  · intro h
    obtain ⟨hkind, hlexeme, hrest⟩ :=
      h.unique (takes_munch c cs) (htext.trans (munch_append c cs).symm)
    rw [hkind, hlexeme, hrest]
  · intro h
    have htakes := takes_munch c cs
    rwa [h] at htakes

end Pixelwise.Token
