/-
Numerals — the texts of number tokens read as numbers.

A number token is digits, or perhaps no digits and then a point with at
least one digit after it.  Main statement: `readable_scan`, that every
number token of a source has a value.
-/
import Pixelwise.Token.Scan
import Pixelwise.Decimal.Literal

namespace Pixelwise

/-- A number is written with digits only. -/
theorem notMem_toString {c : Char} (hc : ¬c.isDigit = true) (n : Nat) :
    c ∉ (toString n).toList := by
  intro h
  rw [Nat.toString_eq_ofList_toDigits, String.toList_ofList] at h
  exact hc (Nat.isDigit_of_mem_toDigits (by decide) (by decide) h)

/-- Digits with at most one point among them; a point is followed by at
least one digit. -/
inductive Numeral : List Char → Prop
  | whole {ds : List Char} : ds ≠ [] → (∀ d ∈ ds, d.isDigit) → Numeral ds
  | point {ds es : List Char} :
      (∀ d ∈ ds, d.isDigit) → es ≠ [] → (∀ e ∈ es, e.isDigit) → Numeral (ds ++ '.' :: es)

namespace Token

theorem fraction_eq (cs : List Char) :
    (fraction cs).1 = [] ∨
      ∃ es, (fraction cs).1 = '.' :: es ∧ es ≠ [] ∧ ∀ e ∈ es, e.isDigit := by
  simp only [fraction]
  split
  · rename_i d cs
    split
    · rename_i hd
      refine Or.inr ⟨d :: cs.takeWhile Char.isDigit, rfl, by simp, ?_⟩
      intro e he
      rcases List.mem_cons.mp he with rfl | he
      · exact hd
      · exact List.all_eq_true.mp (List.all_takeWhile ..) e he
    · exact Or.inl rfl
  · exact Or.inl rfl

theorem munchSymbol_kind (c : Char) (cs : List Char) : (munchSymbol c cs).kind ≠ .number := by
  simp only [munchSymbol]
  split
  · rename_i hk
    simp only [withEqual?] at hk
    split at hk <;> cases hk <;> simp
  · simp only [alone]
    split <;> simp

/-- A number token is a numeral. -/
theorem numeral_of_munch {c : Char} {cs : List Char} (h : (munch c cs).kind = .number) :
    Numeral (munch c cs).lexeme := by
  rw [munch] at h ⊢
  split
  · rename_i hn
    rw [if_pos hn] at h
    cases h
  · rename_i hn
    rw [if_neg hn] at h
    split
    · rename_i hd
      have hds : ∀ d ∈ c :: cs.takeWhile Char.isDigit, d.isDigit := by
        intro d hd'
        rcases List.mem_cons.mp hd' with rfl | hd'
        · exact hd
        · exact List.all_eq_true.mp (List.all_takeWhile ..) d hd'
      rcases fraction_eq (cs.dropWhile Char.isDigit) with he | ⟨es, he, hne, hes⟩
      · simp only [he, List.append_nil]
        exact .whole (by simp) hds
      · simp only [he]
        exact .point hds hne hes
    · rename_i hd
      rw [if_neg hd] at h
      split
      · rename_i he
        rw [if_pos he] at h
        exact absurd h (munchSymbol_kind c cs)
      · rename_i hne
        rcases fraction_eq (c :: cs) with he | ⟨es, he, hne', hes⟩
        · exact absurd he hne
        · simp only [he]
          show Numeral ([] ++ '.' :: es)
          exact .point (by simp) hne' hes

/-- Each token of a text was taken off some text. -/
theorem mem_scanFrom {offset line : Nat} {text : List Char} {t : Token}
    (h : t ∈ scanFrom offset line text) :
    ∃ c cs, t.kind = (munch c cs).kind ∧ t.lexeme = String.ofList (munch c cs).lexeme := by
  fun_induction scanFrom offset line text with
  | case1 => cases h
  | case2 _ _ _ ih => exact ih h
  | case3 _ _ _ _ _ _ ih => exact ih h
  | case4 _ _ _ _ _ ih => exact ih h
  | case5 _ _ c cs _ _ _ ih =>
      rcases List.mem_cons.mp h with rfl | h
      · exact ⟨c, cs, rfl, rfl⟩
      · exact ih h

end Token

namespace Decimal

theorem takeWhile_digits {ds : List Char} (rest : List Char) (h : ∀ d ∈ ds, d.isDigit)
    (hr : rest.head?.all (fun c => !c.isDigit)) :
    (ds ++ rest).takeWhile Char.isDigit = ds ∧ (ds ++ rest).dropWhile Char.isDigit = rest := by
  rw [List.takeWhile_append_of_pos h, List.dropWhile_append_of_pos h]
  cases rest with
  | nil => simp
  | cons c rest =>
      have hc : c.isDigit = false := by simpa using hr
      simp [hc]

theorem isSome_readPlain? {cs : List Char} (h : Numeral cs) : (readPlain? cs).isSome := by
  cases h with
  | @whole ds hne hds =>
      obtain ⟨h₁, h₂⟩ := takeWhile_digits [] hds rfl
      rw [List.append_nil] at h₁ h₂
      simp [readPlain?, h₁, h₂, splitPoint, hne, readExponent?]
  | @point ds es hds hne hes =>
      obtain ⟨h₁, h₂⟩ := takeWhile_digits ('.' :: es) hds rfl
      obtain ⟨h₃, h₄⟩ := takeWhile_digits [] hes rfl
      rw [List.append_nil] at h₃ h₄
      simp [readPlain?, h₁, h₂, splitPoint, h₃, h₄, hne, readExponent?]

theorem isSome_readUnsigned? {cs : List Char} (h : Numeral cs) : (readUnsigned? cs).isSome := by
  unfold readUnsigned?
  simp only
  split
  · rfl
  · split
    · rfl
    · exact isSome_readPlain? h

/-- A numeral opens with a digit or a point, and so with no sign. -/
theorem head_of_numeral {c : Char} {cs : List Char} (h : Numeral (c :: cs)) :
    c.isDigit = true ∨ c = '.' := by
  generalize htext : c :: cs = text at h
  cases h with
  | whole _ hds =>
      subst htext
      exact Or.inl (hds c List.mem_cons_self)
  | @point ds es hds _ _ =>
      cases ds with
      | nil =>
          cases htext
          exact Or.inr rfl
      | cons d ds =>
          cases htext
          exact Or.inl (hds c List.mem_cons_self)

theorem isSome_read? {cs : List Char} (h : Numeral cs) : (read? (String.ofList cs)).isSome := by
  rw [read?]
  rw [String.toList_ofList]
  split
  · exact absurd (head_of_numeral h) (by decide)
  · exact absurd (head_of_numeral h) (by decide)
  · exact isSome_readUnsigned? h

end Decimal

/-- Every number token of a source reads as a number. -/
theorem readable_scan (source : String) {t : Token} (h : t ∈ Token.scan source)
    (hk : t.kind = .number) : (Decimal.read? t.lexeme).isSome := by
  obtain ⟨c, cs, hkind, hlex⟩ := Token.mem_scanFrom h
  rw [hlex]
  exact Decimal.isSome_read? (Token.numeral_of_munch (hkind.symm.trans hk))

end Pixelwise
