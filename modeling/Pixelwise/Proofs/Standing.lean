/-
Standing — where in a text a token stands.

A token is a piece of the text that it was read from, its span is counted in
bytes from the beginning of the text, and its line by the line feeds before
it.  Whatever is passed over or taken in front of it moves it further on
(`Stands.behind`).

Main statements: `stands_of_mem_scan`, and `line_le_of_mem_scan`, that there are
no more lines than line feeds but one.
-/
import Pixelwise.Proofs.Joining

namespace Pixelwise.Token

/-- The token stands in the text between `before` and `after`, where the text
begins at byte `offset` of line `line`. -/
structure Stands (offset line : Nat) (text before after : List Char) (t : Token) : Prop where
  text : text = before ++ (t.lexeme.toList ++ after)
  start : t.span.start = offset + byteLength before
  stop : t.span.stop = t.span.start + byteLength t.lexeme.toList
  line : t.line = line + before.count '\n'

variable {offset line : Nat} {text before after gap : List Char} {t : Token}

/-- A text stands further on behind another one. -/
theorem Stands.behind
    (h : Stands (offset + byteLength gap) (line + gap.count '\n') text before after t) :
    Stands offset line (gap ++ text) (gap ++ before) after t where
  text := by rw [List.append_assoc, ← h.text]
  start := by rw [h.start, byteLength_append, Nat.add_assoc]
  stop := h.stop
  line := by rw [h.line, List.count_append, Nat.add_assoc]

theorem stands_of_mem_scanFrom (h : t ∈ scanFrom offset line text) :
    ∃ before after, Stands offset line text before after t := by
  fun_induction scanFrom offset line text with
  | case1 => cases h
  | case2 offset line cs ih =>
      obtain ⟨before, after, hstands⟩ := ih h
      have hmoved : Stands offset line (['\n'] ++ cs) (['\n'] ++ before) after t := hstands.behind
      exact ⟨'\n' :: before, after, hmoved⟩
  | case3 offset line c cs hc hblank ih =>
      obtain ⟨before, after, hstands⟩ := ih h
      have hmoved : Stands offset line ([c] ++ cs) ([c] ++ before) after t := by
        refine Stands.behind ?_
        rwa [show byteLength [c] = 1 from utf8Size_of_isBlank hblank, List.count_singleton,
          beq_false_of_ne hc]
      exact ⟨c :: before, after, hmoved⟩
  | case4 offset line cs _ _ ih =>
      obtain ⟨before, after, hstands⟩ := ih h
      have hgap : '\n' ∉ '#' :: cs.takeWhile (· ≠ '\n') := by
        simp [notMem_takeWhile]
      have hcs : '#' :: cs = ('#' :: cs.takeWhile (· ≠ '\n')) ++ cs.dropWhile (· ≠ '\n') := by
        rw [List.cons_append, List.takeWhile_append_dropWhile]
      refine ⟨('#' :: cs.takeWhile (· ≠ '\n')) ++ before, after, ?_⟩
      rw [hcs]
      refine Stands.behind ?_
      rwa [List.count_eq_zero_of_not_mem hgap, byteLength, ← Nat.add_assoc]
  | case5 offset line c cs hc _ _ ih =>
      rcases List.mem_cons.mp h with rfl | h
      · refine ⟨[], (munch c cs).rest, ?_, rfl, ?_, rfl⟩
        · rw [List.nil_append, String.toList_ofList, munch_append]
        · rw [String.toList_ofList]
      · obtain ⟨before, after, hstands⟩ := ih h
        refine ⟨(munch c cs).lexeme ++ before, after, ?_⟩
        rw [← munch_append c cs]
        refine Stands.behind ?_
        rwa [List.count_eq_zero_of_not_mem (newline_notMem_lexeme hc cs)]

theorem stands_of_mem_scan {source : String} (h : t ∈ scan source) :
    ∃ before after, Stands 0 1 source.toList before after t :=
  stands_of_mem_scanFrom h

theorem stands_endOf (source : String) :
    Stands 0 1 source.toList source.toList [] (endOf source) where
  text := by simp [endOf]
  start := by rw [endOf, utf8ByteSize_eq, Nat.zero_add]
  stop := rfl
  line := rfl

/-- Lines are counted from one, and by line feeds. -/
theorem line_le_of_mem_scan {source : String} (h : t ∈ scan source) :
    t.line ≤ 1 + source.toList.count '\n' := by
  obtain ⟨before, after, hstands⟩ := stands_of_mem_scan h
  rw [hstands.line, hstands.text, List.count_append]
  omega

end Pixelwise.Token
