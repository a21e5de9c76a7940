/-
Spans — where the tokens of a source stand.

The tokens follow one another: each holds at least one byte, each begins
where the one before ends or later, and the last ends within the source.  So
tokens can be told apart by their places, and the place where a problem is
reported says at which token.
-/
import Pixelwise.Token.Scan

namespace Pixelwise.Token

/-! ## The places of the tokens -/

theorem byteLength_append (cs ds : List Char) :
    byteLength (cs ++ ds) = byteLength cs + byteLength ds := by
  induction cs with
  | nil => simp [byteLength]
  | cons c cs ih => simp [byteLength, ih, Nat.add_assoc]

theorem byteLength_pos {cs : List Char} (h : cs ≠ []) : 0 < byteLength cs := by
  cases cs with
  | nil => exact absurd rfl h
  | cons c cs =>
      have := Char.utf8Size_pos c
      simp only [byteLength]
      omega

/-- What ends in front of a place is in front of it. -/
theorem prefix_of_byteLength_le {as bs cs ds : List Char} (h : as ++ bs = cs ++ ds)
    (hle : byteLength as ≤ byteLength cs) : ∃ es, cs = as ++ es ∧ bs = es ++ ds := by
  rcases List.append_eq_append_iff.mp h with ⟨es, hcs, hbs⟩ | ⟨es, has, hds⟩
  · exact ⟨es, hcs, hbs⟩
  · cases es with
    | nil => exact ⟨[], by rw [has, List.append_nil, List.append_nil], hds.symm⟩
    | cons e es =>
        have hpos := byteLength_pos (List.cons_ne_nil e es)
        rw [has, byteLength_append] at hle
        omega

/-- The number of bytes in front of a place settles what is in front of it. -/
theorem split_of_byteLength_eq {as bs cs ds : List Char} (h : as ++ bs = cs ++ ds)
    (hbytes : byteLength as = byteLength cs) : as = cs ∧ bs = ds := by
  obtain ⟨es, hcs, hbs⟩ := prefix_of_byteLength_le h (Nat.le_of_eq hbytes)
  have hnil : es = [] := by
    cases es with
    | nil => rfl
    | cons e es =>
        have hpos := byteLength_pos (List.cons_ne_nil e es)
        rw [hcs, byteLength_append] at hbytes
        omega
  rw [hnil, List.append_nil] at hcs
  rw [hnil, List.nil_append] at hbs
  exact ⟨hcs.symm, hbs⟩

theorem utf8Size_of_isBlank {c : Char} (h : isBlank c = true) : c.utf8Size = 1 := by
  simp only [isBlank, Bool.or_eq_true, decide_eq_true_eq] at h
  rcases h with (rfl | rfl) | rfl <;> decide

theorem utf8ByteSize_eq (source : String) : source.utf8ByteSize = byteLength source.toList := by
  have key : ∀ cs : List Char, (String.ofList cs).utf8ByteSize = byteLength cs := by
    intro cs
    induction cs with
    | nil => rfl
    | cons c cs ih => simp [String.ofList_cons, byteLength, ih]
  simpa using key source.toList

/-- Every token stands between the place where the scan begins and the end
of the text. -/
theorem span_of_mem_scanFrom {offset line : Nat} {text : List Char} {t : Token}
    (h : t ∈ scanFrom offset line text) :
    offset ≤ t.span.start ∧ t.span.start < t.span.stop ∧
      t.span.stop ≤ offset + byteLength text := by
  fun_induction scanFrom offset line text with
  | case1 => cases h
  | case2 offset line cs ih =>
      obtain ⟨h₁, h₂, h₃⟩ := ih h
      have : ('\n').utf8Size = 1 := by decide
      simp only [byteLength]
      omega
  | case3 offset line c cs _ hb ih =>
      obtain ⟨h₁, h₂, h₃⟩ := ih h
      have : 0 < c.utf8Size := Char.utf8Size_pos c
      simp only [byteLength]
      omega
  | case4 offset line cs _ _ ih =>
      obtain ⟨h₁, h₂, h₃⟩ := ih h
      have hsize : ('#').utf8Size = 1 := by decide
      have hcs : byteLength (cs.takeWhile (· ≠ '\n')) + byteLength (cs.dropWhile (· ≠ '\n')) =
          byteLength cs := by
        rw [← byteLength_append, List.takeWhile_append_dropWhile]
      simp only [byteLength]
      omega
  | case5 offset line c cs _ _ _ ih =>
      have hmunch : byteLength (munch c cs).lexeme + byteLength (munch c cs).rest =
          byteLength (c :: cs) := by
        rw [← byteLength_append, munch_append]
      have hpos := byteLength_pos (munch_lexeme_ne_nil c cs)
      rcases List.mem_cons.mp h with rfl | h
      · exact ⟨Nat.le_refl _, by simpa using hpos, by simp only; omega⟩
      · obtain ⟨h₁, h₂, h₃⟩ := ih h
        omega

theorem pairwise_scanFrom (offset line : Nat) (text : List Char) :
    (scanFrom offset line text).Pairwise fun t u => t.span.stop ≤ u.span.start := by
  fun_induction scanFrom offset line text with
  | case1 => exact .nil
  | case2 _ _ _ ih => exact ih
  | case3 _ _ _ _ _ _ ih => exact ih
  | case4 _ _ _ _ _ ih => exact ih
  | case5 _ _ _ _ _ _ _ ih => exact .cons (fun u hu => (span_of_mem_scanFrom hu).1) ih

theorem nonempty_of_mem_scan {source : String} {t : Token} (h : t ∈ scan source) :
    t.span.start < t.span.stop :=
  (span_of_mem_scanFrom h).2.1

theorem stop_le_of_mem_scan {source : String} {t : Token} (h : t ∈ scan source) :
    t.span.stop ≤ source.utf8ByteSize := by
  rw [utf8ByteSize_eq]
  simpa using (span_of_mem_scanFrom h).2.2

/-- Tokens in front end before those behind begin. -/
theorem stop_le_start {source : String} {xs ys : List Token} (h : scan source = xs ++ ys)
    {t u : Token} (ht : t ∈ xs) (hu : u ∈ ys) : t.span.stop ≤ u.span.start := by
  have hpairwise := pairwise_scanFrom 0 1 source.toList
  rw [← scan, h] at hpairwise
  exact (List.pairwise_append.mp hpairwise).2.2 t ht u hu

/-- A place occurs once among the tokens. -/
theorem split_unique {source : String} {xs xs' ys ys' : List Token} {t t' : Token}
    (h : scan source = xs ++ t :: ys) (h' : scan source = xs' ++ t' :: ys')
    (hspan : t.span = t'.span) : xs = xs' ∧ t = t' ∧ ys = ys' := by
  have hne : t.span.start < t.span.stop := nonempty_of_mem_scan (show t ∈ scan source by simp [h])
  rcases List.append_eq_append_iff.mp (h.symm.trans h') with ⟨cs, rfl, hc⟩ | ⟨cs, rfl, hc⟩
  · cases cs with
    | nil => simpa using hc
    | cons c cs =>
        cases hc
        have := stop_le_start h' (t := t) (by simp) List.mem_cons_self
        rw [← hspan] at this
        omega
  · cases cs with
    | nil => simpa [eq_comm] using hc
    | cons c cs =>
        cases hc
        have := stop_le_start h (t := t') (by simp) List.mem_cons_self
        rw [← hspan] at this
        omega

end Pixelwise.Token
