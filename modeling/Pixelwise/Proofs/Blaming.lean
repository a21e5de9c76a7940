/-
Blaming — on which token a problem is blamed.

A problem is reported at the token taken last, at the token ahead, or at a
name that was taken some time before.  All of them are tokens of the source
(`Draws`), and what the problem says of the token is so (`Problem.Fits`): the
name that it gives is the one that is written there.  The token taken last is
the end only while the compiler panics (`Reads.taken`), so all that is blamed
on the end is that something is missing there.  The code that is emitted is on
the lines of these tokens too.

Main statements: `blames_of_mem`, that every diagnostic is blamed on a token of
the source, or on its end; and `line_le_of_mem_linesOf`, that there are no lines
beyond the last one of the source.
-/
import Pixelwise.Proofs.Diagnosis
import Pixelwise.Proofs.Cascading
import Pixelwise.Proofs.Standing

namespace Pixelwise

open Token Syntax

/-- What the problem says of the token is so. -/
def Problem.Fits (t : Token) : Problem → Prop
  | unexpectedCharacter c => t.kind = .unexpected c
  | invalidNumber lexeme => t.kind = .number ∧ t.lexeme = lexeme
  | undefinedName name | assignToInput name | assignToFunction name | functionNotCalled name
  | arityMismatch name _ _ => t.kind = .identifier ∧ t.lexeme = name
  | notCallable => t.kind = .identifier
  | invalidTarget => t.kind = .equal
  | tooManyArguments => t.kind ≠ .endOfInput
  | missing _ | expectedExpression => True

namespace Compiler

/-! ## The token taken last -/

/-- The token taken last is no end, unless the compiler panics. -/
def State.Taken (s : State) : Prop :=
  s.panicking = false → s.previous.kind ≠ .endOfInput

namespace State.Taken

variable {s r : State}

theorem rests (h : s.Taken) (hr : Rests s r) (hgoes : Goes s r) : r.Taken := by
  intro hcalm
  rw [hr.previous]
  exact h (hgoes.calm hcalm)

theorem report (h : s.Taken) (t : Token) (p : Problem) : (s.report t p).Taken :=
  h.rests (.report s t p) (Goes.stepwise.report s t p)

theorem emit (h : s.Taken) (i : Instruction) : (s.emit i).Taken :=
  h

theorem bind (h : s.Taken) (inputs : List String) (name : String) :
    (s.bind inputs name).Taken := by
  have hcode := h.rests (.emitAll s [.set name, .get name]) (Goes.stepwise.emitAll s _)
  rw [State.bind]
  split
  · exact hcode
  · exact hcode

theorem check {t : Token} (h : s.Taken) (hc : Checks t s r) : r.Taken := by
  cases hc with
  | passed => exact h
  | failed p => exact h.report t p

theorem advance (h : s.ahead ≠ .endOfInput) : s.advance.Taken := by
  obtain ⟨t, rest, -, hcurrent, hahead⟩ := exists_of_ahead h
  intro _
  rw [s.rests_advance.previous]
  exact fun hk => h (by rw [hahead, ← hcurrent]; exact hk)

theorem expect (h : s.Taken) (what : Expectation) : (s.expect what).Taken := by
  rw [State.expect]
  split
  · rename_i hahead
    exact advance (by cases what <;> simp [hahead, Expectation.kind])
  · exact h.report _ _

theorem refuseTarget (h : s.Taken) (b : Bool) : (s.refuseTarget b).Taken := by
  rw [State.refuseTarget]
  split
  · rename_i hrefuse
    exact (advance (by simp [hrefuse.2])).report _ _
  · exact h

end State.Taken

/-- After an expression a token was taken. -/
theorem Reads.taken {inputs : List String} {part : Part} {s r : State} {n : Nat}
    (h : Reads inputs part s r n) (hs : (∃ level, part = .expression level) ∨ s.Taken) :
    r.Taken := by
  induction h with
  | missing => exact fun hcalm => absurd hcalm (State.report_calm rfl)
  | opened ho _ _ ih₁ ih₂ =>
      have hs := State.Taken.advance (ahead_ne_of_opening ho)
      exact (ih₂ (Or.inr (ih₁ (Or.inr hs)))).refuseTarget _
  | group _ ih => exact (ih (Or.inl ⟨_, rfl⟩)).expect _
  | unary _ ih => exact (ih (Or.inl ⟨_, rfl⟩)).emit _
  | @number t b s =>
      have hs := hs.resolve_left (by simp)
      exact hs.rests (.number s t) (Goes.stepwise.number s t)
  | assign _ _ ih => exact (ih (Or.inl ⟨_, rfl⟩)).bind _ _
  | call _ hp _ ih =>
      have hargs := ih (Or.inr (State.Taken.advance (by simp [hp])))
      exact (hargs.check (.arity _ _ _ _)).emit _
  | function =>
      have hs := hs.resolve_left (by simp)
      exact (hs.emit _).report _ _
  | callOther _ hp _ ih =>
      exact (ih (Or.inr ((State.Taken.advance (by simp [hp])).report _ _))).emit _
  | name =>
      have hs := hs.resolve_left (by simp)
      exact (hs.check (.defined _ _ _)).emit _
  | stop => exact hs.resolve_left (by simp)
  | join _ _ _ _ ih₁ ih₂ =>
      exact ih₂ (Or.inr ((ih₁ (Or.inl ⟨_, rfl⟩)).rests (.emitAll _ _) (Goes.stepwise.emitAll _ _)))
  | noArguments => exact (hs.resolve_left (by simp)).expect _
  | arguments _ _ ih => exact (ih (Or.inr (hs.resolve_left (by simp)))).expect _
  | lastArgument _ _ ih => exact (ih (Or.inl ⟨_, rfl⟩)).check (.count _ _)
  | moreArguments _ hcomma _ _ ih₂ => exact ih₂ (Or.inr (State.Taken.advance (by simp [hcomma])))

/-! ## Blame -/

/-- The diagnostic stands at one of the tokens, and fits it. -/
def Blames (zone : List Token) (d : Diagnostic) : Prop :=
  ∃ t ∈ zone, d = at' d.problem t ∧ d.problem.Fits t

/-- The tokens of the state are drawn from `zone`, its diagnostics are blamed
on tokens from there, and its code is on their lines. -/
structure Draws (zone : List Token) (s : State) : Prop where
  previous : s.previous ∈ zone
  pending : ∀ t ∈ s.pending, t ∈ zone
  final : s.final ∈ zone
  diagnostics : ∀ d ∈ s.diagnostics, Blames zone d
  lines : ∀ p ∈ s.emitted, ∃ t ∈ zone, p.2 = t.line

namespace Draws

variable {zone : List Token} {s r : State} {t : Token} {inputs : List String}

theorem current (h : Draws zone s) : s.current ∈ zone := by
  rw [State.current]
  cases hp : s.pending with
  | nil => exact h.final
  | cons t rest => exact h.pending t (by simp [hp])

theorem report (h : Draws zone s) (ht : t ∈ zone) {p : Problem} (hp : p.Fits t) :
    Draws zone (s.report t p) := by
  rw [State.report]
  split
  · exact h
  · refine ⟨h.previous, h.pending, h.final, fun d hd => ?_, h.lines⟩
    rcases Array.mem_push.mp hd with hd | rfl
    · exact h.diagnostics d hd
    · exact ⟨t, ht, rfl, hp⟩

theorem emit (h : Draws zone s) (i : Instruction) : Draws zone (s.emit i) := by
  refine ⟨h.previous, h.pending, h.final, h.diagnostics, fun p hp => ?_⟩
  rcases Array.mem_push.mp hp with hp | rfl
  · exact h.lines p hp
  · exact ⟨s.previous, h.previous, rfl⟩

theorem emitAll (h : Draws zone s) (code : List Instruction) : Draws zone (s.emitAll code) := by
  rw [State.emitAll]
  induction code generalizing s with
  | nil => exact h
  | cons i rest ih => exact ih (h.emit i)

theorem settle (h : Draws zone s) {ts : List Token} (hts : ∀ u ∈ ts, u ∈ zone) :
    Draws zone (s.settle ts) := by
  induction ts generalizing s with
  | nil => exact ⟨h.previous, by simp [State.settle], h.final, h.diagnostics, h.lines⟩
  | cons u rest ih =>
      obtain ⟨hu, hrest⟩ := List.forall_mem_cons.mp hts
      rw [State.settle]
      split
      · rename_i c hc
        exact ih (h.report hu hc) hrest
      · exact ⟨h.previous, hts, h.final, h.diagnostics, h.lines⟩

theorem advance (h : Draws zone s) : Draws zone s.advance :=
  settle (s := { s with previous := s.current })
    ⟨h.current, h.pending, h.final, h.diagnostics, h.lines⟩
    fun u hu => h.pending u (List.mem_of_mem_tail hu)

theorem expect (h : Draws zone s) (what : Expectation) : Draws zone (s.expect what) := by
  rw [State.expect]
  split
  · exact h.advance
  · exact h.report h.current trivial

theorem refuseTarget (h : Draws zone s) (b : Bool) : Draws zone (s.refuseTarget b) := by
  rw [State.refuseTarget]
  split
  · rename_i hrefuse
    obtain ⟨sign, ts, -, hcurrent, hahead⟩ :=
      State.exists_of_ahead (s := s) (by simp [hrefuse.2])
    exact h.advance.report h.current (p := .invalidTarget) (by
      rw [Problem.Fits, hcurrent, ← hahead, hrefuse.2])
  · exact h

theorem number (h : Draws zone s) (ht : t ∈ zone) (hk : t.kind = .number) :
    Draws zone (s.number t) := by
  rw [State.number]
  split
  · exact h.emit _
  · exact (h.report (p := .invalidNumber t.lexeme) ht ⟨hk, rfl⟩).emit _

theorem checkTarget (h : Draws zone s) (ht : t ∈ zone) (hk : t.kind = .identifier) :
    Draws zone (s.checkTarget inputs t) := by
  rw [State.checkTarget]
  repeat' split
  · exact h.report ht ⟨hk, rfl⟩
  · exact h.report ht ⟨hk, rfl⟩
  · exact h

theorem bind (h : Draws zone s) (name : String) : Draws zone (s.bind inputs name) := by
  have hcode := h.emitAll [.set name, .get name]
  rw [State.bind]
  split
  · exact hcode
  · exact ⟨hcode.previous, hcode.pending, hcode.final, hcode.diagnostics, hcode.lines⟩

theorem checkDefined (h : Draws zone s) (ht : t ∈ zone) (hk : t.kind = .identifier) :
    Draws zone (s.checkDefined inputs t) := by
  rw [State.checkDefined]
  split
  · exact h
  · exact h.report ht ⟨hk, rfl⟩

theorem checkArity (h : Draws zone s) (ht : t ∈ zone) (hk : t.kind = .identifier) (f : Builtin)
    (found : Nat) : Draws zone (s.checkArity t f found) := by
  rw [State.checkArity]
  split
  · exact h
  · exact h.report ht ⟨hk, rfl⟩

theorem checkCount (h : Draws zone s) (htaken : s.Taken) (count : Nat) :
    Draws zone (s.checkCount count) := by
  rw [State.checkCount]
  split
  · cases hs : s.panicking with
    | true =>
        rw [State.report_of_panicking hs]
        exact h
    | false => exact h.report h.previous (p := .tooManyArguments) (htaken hs)
  · exact h

theorem skipStatement (h : Draws zone s) : Draws zone s.skipStatement := by
  fun_induction State.skipStatement s with
  | case1 s => exact h
  | case2 s => exact h
  | case3 s _ _ ih => exact ih h.advance

theorem recoverIfPanicking (h : Draws zone s) : Draws zone s.recoverIfPanicking := by
  rw [State.recoverIfPanicking, State.recover]
  split
  · exact skipStatement ⟨h.previous, h.pending, h.final, h.diagnostics, h.lines⟩
  · exact h

end Draws

variable {inputs : List String} {zone : List Token} {source : String}

/-- The token of an operand is the one that opened it. -/
def Part.Drawn (zone : List Token) : Part → Prop
  | .operand o t _ => t ∈ zone ∧ t.kind.opening = some o
  | _ => True

theorem Reads.draws {part : Part} {s r : State} {n : Nat} (h : Reads inputs part s r n)
    (hpart : part.Drawn zone) (hs : Draws zone s) : Draws zone r := by
  induction h with
  | missing => exact hs.advance.report hs.current trivial
  | @opened level o s r q ho _ _ ih₁ ih₂ =>
      obtain ⟨t, ts, -, hcur, ha⟩ := State.exists_of_ahead (ahead_ne_of_opening ho)
      have hoperand : (Part.operand o s.current (decide (level ≤ .assignment))).Drawn zone :=
        ⟨hs.current, by rw [hcur, ← ha, ho]⟩
      exact (ih₂ trivial (ih₁ hoperand hs.advance)).refuseTarget _
  | group _ ih => exact (ih trivial hs).expect _
  | unary _ ih => exact (ih trivial hs).emit _
  | number => exact hs.number hpart.1 (opening_number hpart.2)
  | assign _ _ ih =>
      exact (ih trivial (hs.advance.checkTarget hpart.1 (opening_variable hpart.2))).bind _
  | call _ _ _ ih =>
      have hargs := ih trivial (hs.emit _).advance
      exact (hargs.checkArity hpart.1 (opening_variable hpart.2) _ _).emit _
  | function => exact (hs.emit _).report hpart.1 ⟨opening_variable hpart.2, rfl⟩
  | @callOther t _ s _ _ _ _ _ ih =>
      have hk := opening_variable hpart.2
      have hnamed : Draws zone ((s.checkDefined inputs t).emit (.get t.lexeme)) :=
        (hs.checkDefined hpart.1 hk).emit _
      exact (ih trivial (hnamed.advance.report hpart.1 hk)).emit _
  | name => exact (hs.checkDefined hpart.1 (opening_variable hpart.2)).emit _
  | stop => exact hs
  | join _ _ _ _ ih₁ ih₂ => exact ih₂ trivial ((ih₁ trivial hs.advance).emitAll _)
  | noArguments => exact hs.expect _
  | arguments _ _ ih => exact (ih trivial hs).expect _
  | lastArgument hvalue _ ih =>
      exact (ih trivial hs).checkCount (hvalue.taken (Or.inl ⟨_, rfl⟩)) _
  | moreArguments hvalue _ _ ih₁ ih₂ =>
      have htaken := hvalue.taken (Or.inl ⟨_, rfl⟩)
      exact ih₂ trivial ((ih₁ trivial hs).checkCount htaken _).advance

theorem statement_draws {s : State} (h : Draws zone s) : Draws zone (statement inputs s) :=
  (((reads_expression .assignment s).draws trivial h).expect _).emit _

theorem statements_draws {s : State} (h : Draws zone s) : Draws zone (statements inputs s) := by
  fun_induction statements inputs s with
  | case1 s => exact h
  | case2 s _ ih => exact ih (statement_draws h).recoverIfPanicking

theorem start_draws (assigned : List String) (source : String) :
    Draws (scan source ++ [endOf source]) (State.start assigned (scan source) (endOf source)) :=
  Draws.settle ⟨by simp, by simp, by simp, by simp, by simp⟩
    fun _ ht => List.mem_append_left _ ht

theorem finish_draws (assigned inputs : List String) (source : String) :
    Draws (scan source ++ [endOf source]) (finish assigned inputs source) :=
  statements_draws (start_draws assigned source)

end Compiler

open Compiler

/-- Every diagnostic is blamed on a token of the source or on its end. -/
theorem blames_of_mem {inputs : List String} {source : String} {d : Diagnostic}
    (h : d ∈ problems inputs source) : Blames (scan source ++ [endOf source]) d := by
  rw [problems_eq, Array.mem_toList_iff] at h
  exact (finish_draws [] inputs source).diagnostics d h

/-! ## Lines -/

/-- The lines that the result of a compilation names: those of its code, or
those of all that is wrong. -/
def linesOf : Except (List Diagnostic) Chunk → List Nat
  | .ok chunk => chunk.lines
  | .error diagnostics => diagnostics.map (·.line)

/-- What a compilation names is on the line of a token, or on the last one. -/
theorem exists_of_mem_linesOf {assigned inputs : List String} {source : String} {line : Nat}
    (h : line ∈ linesOf (compileAfter assigned inputs source)) :
    ∃ t ∈ scan source ++ [endOf source], line = t.line := by
  have hdraws := finish_draws assigned inputs source
  rw [compileAfter, State.result] at h
  split at h
  · obtain ⟨p, hp, rfl⟩ := List.mem_map.mp h
    exact hdraws.lines p (Array.mem_toList_iff.mp hp)
  · obtain ⟨d, hd, rfl⟩ := List.mem_map.mp h
    obtain ⟨t, ht, hat, -⟩ := hdraws.diagnostics d (Array.mem_toList_iff.mp hd)
    exact ⟨t, ht, congrArg Diagnostic.line hat⟩

/-- A compilation names no line beyond the line feeds of the source and one. -/
theorem line_le_of_mem_linesOf {assigned inputs : List String} {source : String} {line : Nat}
    (h : line ∈ linesOf (compileAfter assigned inputs source)) :
    line ≤ 1 + source.toList.count '\n' := by
  obtain ⟨t, ht, rfl⟩ := exists_of_mem_linesOf h
  rcases List.mem_append.mp ht with ht | ht
  · exact line_le_of_mem_scan ht
  · rw [List.mem_singleton.mp ht]
    exact Nat.le_of_eq (stands_endOf source).line

end Pixelwise
