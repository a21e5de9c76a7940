/-
Relocating — the compiler does the same wherever its tokens stand.

Of a token the compiler looks at the kind and the lexeme only.  Line and span
are handed on to the problems that are reported and to the code that is
emitted, what was emitted before is never looked at again, and of the names
assigned only which they are.  So two states that differ in no more than that
(`Moved`) come to two such states, whatever is read.

Main statement: `statements_moved`.
-/
import Pixelwise.Relocation
import Pixelwise.Proofs.Reading

namespace Pixelwise.Compiler

/-- `Moved m front s r`: the state `r` is `s` in another place, behind code
that has been emitted before. -/
structure Moved (m : Relocation) (front : Array (Instruction × Nat)) (s r : State) : Prop where
  previous : r.previous = s.previous.relocate m
  pending : r.pending = s.pending.map (·.relocate m)
  final : r.final = s.final.relocate m
  panicking : r.panicking = s.panicking
  assigned : ∀ name, name ∈ r.assigned ↔ name ∈ s.assigned
  diagnostics : r.diagnostics = s.diagnostics.map (·.relocate m)
  emitted : r.emitted = front ++ s.emitted.map fun p => (p.1, m.line p.2)

theorem settled_relocate {ts : List Token} (h : Settled ts) (m : Relocation) :
    Settled (ts.map (·.relocate m)) := by
  cases ts with
  | nil => exact h
  | cons t rest => exact h

namespace Moved

variable {m : Relocation} {front : Array (Instruction × Nat)} {s r : State}

/-! ## Steps -/

theorem ahead (h : Moved m front s r) : r.ahead = s.ahead := by
  rw [State.ahead, State.ahead, h.pending]
  cases s.pending <;> rfl

theorem current (h : Moved m front s r) : r.current = s.current.relocate m := by
  rw [State.current, State.current, h.pending, h.final]
  cases s.pending <;> rfl

theorem report (h : Moved m front s r) (t : Token) (p : Problem) :
    Moved m front (s.report t p) (r.report (t.relocate m) p) := by
  rw [State.report, State.report, h.panicking]
  split
  · exact h
  · refine ⟨h.previous, h.pending, h.final, rfl, h.assigned, ?_, h.emitted⟩
    rw [h.diagnostics, Array.map_push]
    rfl

theorem emit (h : Moved m front s r) (i : Instruction) : Moved m front (s.emit i) (r.emit i) := by
  refine ⟨h.previous, h.pending, h.final, h.panicking, h.assigned, h.diagnostics, ?_⟩
  show r.emitted.push (i, r.previous.line) = _
  rw [h.emitted, h.previous, State.emit, Array.map_push, Array.push_append]
  rfl

theorem emitAll (h : Moved m front s r) (code : List Instruction) :
    Moved m front (s.emitAll code) (r.emitAll code) := by
  induction code generalizing s r with
  | nil => exact h
  | cons i rest ih => exact ih (h.emit i)

theorem assign (h : Moved m front s r) (name : String) :
    Moved m front (s.assign name) (r.assign name) := by
  refine ⟨h.previous, h.pending, h.final, h.panicking, fun n => ?_, h.diagnostics, h.emitted⟩
  show n ∈ name :: r.assigned ↔ n ∈ name :: s.assigned
  rw [List.mem_cons, List.mem_cons, h.assigned]

theorem settle (h : Moved m front s r) (ts : List Token) :
    Moved m front (s.settle ts) (r.settle (ts.map (·.relocate m))) := by
  induction ts generalizing s r with
  | nil =>
      exact ⟨h.previous, rfl, h.final, h.panicking, h.assigned, h.diagnostics, h.emitted⟩
  | cons t rest ih =>
      rw [List.map_cons, State.settle, State.settle, Token.kind_relocate]
      split
      · exact ih (h.report t _)
      · exact ⟨h.previous, rfl, h.final, h.panicking, h.assigned, h.diagnostics, h.emitted⟩

theorem advance (h : Moved m front s r) : Moved m front s.advance r.advance := by
  have htaken : Moved m front { s with previous := s.current } { r with previous := r.current } :=
    ⟨h.current, h.pending, h.final, h.panicking, h.assigned, h.diagnostics, h.emitted⟩
  have htail : r.pending.tail = s.pending.tail.map (·.relocate m) := by
    rw [h.pending, List.map_tail]
  rw [State.advance, State.advance, htail]
  exact htaken.settle s.pending.tail

theorem expect (h : Moved m front s r) (what : Expectation) :
    Moved m front (s.expect what) (r.expect what) := by
  rw [State.expect, State.expect, h.ahead, h.current]
  split
  · exact h.advance
  · exact h.report _ _

theorem number (h : Moved m front s r) (t : Token) :
    Moved m front (s.number t) (r.number (t.relocate m)) := by
  rw [State.number, State.number, Token.lexeme_relocate]
  split
  · exact h.emit _
  · exact (h.report t _).emit _

theorem checkTarget (h : Moved m front s r) (inputs : List String) (t : Token) :
    Moved m front (s.checkTarget inputs t) (r.checkTarget inputs (t.relocate m)) := by
  rw [State.checkTarget, State.checkTarget, Token.lexeme_relocate]
  split
  · exact h.report t _
  · split
    · exact h.report t _
    · exact h

theorem bind (h : Moved m front s r) (inputs : List String) (name : String) :
    Moved m front (s.bind inputs name) (r.bind inputs name) := by
  rw [State.bind, State.bind]
  split
  · exact h.emitAll _
  · exact (h.emitAll _).assign name

theorem checkDefined (h : Moved m front s r) (inputs : List String) (t : Token) :
    Moved m front (s.checkDefined inputs t) (r.checkDefined inputs (t.relocate m)) := by
  have hknown : decide (t.lexeme ∈ r.assigned) = decide (t.lexeme ∈ s.assigned) :=
    decide_eq_decide.mpr (h.assigned t.lexeme)
  rw [State.checkDefined, State.checkDefined, Token.lexeme_relocate, hknown]
  split
  · exact h
  · exact h.report t _

theorem checkArity (h : Moved m front s r) (t : Token) (f : Builtin) (found : Nat) :
    Moved m front (s.checkArity t f found) (r.checkArity (t.relocate m) f found) := by
  rw [State.checkArity, State.checkArity]
  split
  · exact h
  · exact h.report t _

theorem checkCount (h : Moved m front s r) (count : Nat) :
    Moved m front (s.checkCount count) (r.checkCount count) := by
  rw [State.checkCount, State.checkCount, h.previous]
  split
  · exact h.report _ _
  · exact h

theorem refuseTarget (h : Moved m front s r) (canAssign : Bool) :
    Moved m front (s.refuseTarget canAssign) (r.refuseTarget canAssign) := by
  rw [State.refuseTarget, State.refuseTarget, h.ahead, h.current]
  split
  · exact h.advance.report _ _
  · exact h

end Moved

/-! ## Expressions -/

/-- What the functions of the grammar make of a state, with the number of
arguments of a call. -/
def Part.read (inputs : List String) : Part → State → State × Nat
  | .expression level, s => (Compiler.expression inputs level s, 0)
  | .operand o t canAssign, s => (Compiler.operand inputs o t canAssign s, 0)
  | .operators level, s => (Compiler.operators inputs level s, 0)
  | .arguments, s => Compiler.arguments inputs s
  | .argument count, s => Compiler.argument inputs count s

/-- The part in another place. -/
def Part.relocate (m : Relocation) : Part → Part
  | .operand o t canAssign => .operand o (t.relocate m) canAssign
  | part => part

section

variable {inputs : List String} {m : Relocation} {front : Array (Instruction × Nat)}

/-- Where the grammar reads `s` to `r`, it reads what is `s` in another place
to what is `r` there. -/
theorem Reads.moved {part : Part} {s r : State} {n : Nat} (h : Reads inputs part s r n)
    {s' : State} (hs : Moved m front s s') :
    Moved m front r ((part.relocate m).read inputs s').1 ∧
      ((part.relocate m).read inputs s').2 = n := by
  induction h generalizing s' with
  | missing hnone =>
      refine ⟨?_, rfl⟩
      show Moved m front _ (expression inputs _ s')
      rw [expression_eq, hs.ahead, hnone, hs.current]
      exact hs.advance.report _ _
  | opened ho _ _ ih₁ ih₂ =>
      refine ⟨?_, rfl⟩
      show Moved m front _ (expression inputs _ s')
      rw [expression_eq, hs.ahead, ho, hs.current]
      exact (ih₂ (ih₁ hs.advance).1).1.refuseTarget _
  | group _ ih =>
      refine ⟨?_, rfl⟩
      show Moved m front _ (operand inputs .grouping _ _ s')
      rw [operand_grouping]
      exact (ih hs).1.expect _
  | unary _ ih =>
      refine ⟨?_, rfl⟩
      show Moved m front _ (operand inputs (.unary _) _ _ s')
      rw [operand_unary]
      exact (ih hs).1.emit _
  | number =>
      refine ⟨?_, rfl⟩
      show Moved m front _ (operand inputs .number _ _ s')
      rw [operand_number]
      exact hs.number _
  | assign he _ ih =>
      refine ⟨?_, rfl⟩
      show Moved m front _ (operand inputs .variable _ true s')
      rw [operand_variable, if_pos ⟨rfl, hs.ahead.trans he⟩]
      exact (ih (hs.advance.checkTarget inputs _)).1.bind inputs _
  | @call t b f s r argc hf hp _ ih =>
      have hne : ¬ (b = true ∧ s'.ahead = .equal) := by simp [hs.ahead, hp]
      obtain ⟨hargs, hargc⟩ := ih (hs.emit (.get t.lexeme)).advance
      refine ⟨?_, rfl⟩
      show Moved m front _ (operand inputs .variable (t.relocate m) b s')
      rw [operand_variable, if_neg hne, Token.lexeme_relocate, hf]
      simp only [hs.ahead, hp, if_true]
      exact hargc ▸ (hargs.checkArity t f _).emit _
  | @function t b f s he hf hp =>
      have hne : ¬ (b = true ∧ s'.ahead = .equal) := hs.ahead ▸ he
      refine ⟨?_, rfl⟩
      show Moved m front _ (operand inputs .variable (t.relocate m) b s')
      rw [operand_variable, if_neg hne, Token.lexeme_relocate, hf]
      simp only [hs.ahead, if_neg hp]
      exact (hs.emit _).report t _
  | @callOther t b s r argc hf hp _ ih =>
      have hne : ¬ (b = true ∧ s'.ahead = .equal) := by simp [hs.ahead, hp]
      obtain ⟨hargs, hargc⟩ :=
        ih (((hs.checkDefined inputs t).emit (.get t.lexeme)).advance.report t .notCallable)
      refine ⟨?_, rfl⟩
      show Moved m front _ (operand inputs .variable (t.relocate m) b s')
      rw [operand_variable, if_neg hne, Token.lexeme_relocate, hf]
      simp only [hs.ahead, hp, if_true]
      exact hargc ▸ hargs.emit _
  | @name t b s he hf hp =>
      have hne : ¬ (b = true ∧ s'.ahead = .equal) := hs.ahead ▸ he
      refine ⟨?_, rfl⟩
      show Moved m front _ (operand inputs .variable (t.relocate m) b s')
      rw [operand_variable, if_neg hne, Token.lexeme_relocate, hf]
      simp only [hs.ahead, if_neg hp]
      exact (hs.checkDefined inputs t).emit _
  | @stop level s hstop =>
      refine ⟨?_, rfl⟩
      show Moved m front s (operators inputs level s')
      rw [operators_eq, hs.ahead]
      cases ho : s.ahead.operator with
      | none => exact hs
      | some op =>
          rw [ho] at hstop
          simp only [if_neg (hstop op rfl)]
          exact hs
  | @join level op s r q ho hl _ _ ih₁ ih₂ =>
      refine ⟨?_, rfl⟩
      show Moved m front q (operators inputs level s')
      rw [operators_eq, hs.ahead, ho]
      simp only [if_pos hl]
      exact (ih₂ ((ih₁ hs.advance).1.emitAll op.code)).1
  | @noArguments s hp =>
      show Moved m front _ (Compiler.arguments inputs s').1 ∧ (Compiler.arguments inputs s').2 = 0
      rw [arguments_eq, if_pos (hs.ahead.trans hp)]
      exact ⟨hs.expect _, rfl⟩
  | @arguments s r argc hp _ ih =>
      obtain ⟨hargs, hargc⟩ := ih hs
      show Moved m front _ (Compiler.arguments inputs s').1 ∧ (Compiler.arguments inputs s').2 = argc
      rw [arguments_eq, if_neg (hs.ahead ▸ hp)]
      exact ⟨hargs.expect _, hargc⟩
  | @lastArgument count s r _ hcomma ih =>
      have hvalue : Moved m front _ ((expression inputs .assignment s').checkCount count) :=
        (ih hs).1.checkCount count
      show Moved m front _ (argument inputs count s').1 ∧ (argument inputs count s').2 = _
      rw [argument_eq, if_neg (hvalue.ahead ▸ hcomma)]
      exact ⟨hvalue, rfl⟩
  | @moreArguments count argc s r q _ hcomma _ ih₁ ih₂ =>
      have hvalue : Moved m front _ ((expression inputs .assignment s').checkCount count) :=
        (ih₁ hs).1.checkCount count
      show Moved m front _ (argument inputs count s').1 ∧ (argument inputs count s').2 = _
      rw [argument_eq, if_pos (hvalue.ahead.trans hcomma)]
      exact ih₂ hvalue.advance

/-! ## Statements -/

variable {s r : State}

theorem statement_moved (inputs : List String) (h : Moved m front s r) :
    Moved m front (statement inputs s) (statement inputs r) :=
  (((reads_expression .assignment s).moved h).1.expect _).emit _

theorem skipStatement_moved (h : Moved m front s r) :
    Moved m front s.skipStatement r.skipStatement := by
  fun_induction State.skipStatement s generalizing r with
  | case1 s hp =>
      have hr : r.pending = [] := by rw [h.pending, hp, List.map_nil]
      rw [State.skipStatement, dif_pos hr]
      exact h
  | case2 s hp hk =>
      have hr : r.pending ≠ [] := by simpa [h.pending] using hp
      have hr' : r.previous.kind = .semicolon := by rw [h.previous, Token.kind_relocate, hk]
      rw [State.skipStatement, dif_neg hr, if_pos hr']
      exact h
  | case3 s hp hk ih =>
      have hr : r.pending ≠ [] := by simpa [h.pending] using hp
      have hr' : r.previous.kind ≠ .semicolon := by rwa [h.previous, Token.kind_relocate]
      rw [State.skipStatement.eq_def r, dif_neg hr, if_neg hr']
      exact ih h.advance

theorem recoverIfPanicking_moved (h : Moved m front s r) :
    Moved m front s.recoverIfPanicking r.recoverIfPanicking := by
  have hcalm : Moved m front { s with panicking := false } { r with panicking := false } :=
    ⟨h.previous, h.pending, h.final, rfl, h.assigned, h.diagnostics, h.emitted⟩
  rw [State.recoverIfPanicking, State.recoverIfPanicking, h.panicking]
  split
  · exact skipStatement_moved hcalm
  · exact h

/-- All statements come to the same in another place. -/
theorem statements_moved (inputs : List String) (h : Moved m front s r) :
    Moved m front (statements inputs s) (statements inputs r) := by
  fun_induction statements inputs s generalizing r with
  | case1 s hp =>
      have hr : r.pending = [] := by rw [h.pending, hp, List.map_nil]
      rw [statements, dif_pos hr]
      exact h
  | case2 s hp ih =>
      have hr : r.pending ≠ [] := by simpa [h.pending] using hp
      rw [statements.eq_def inputs r, dif_neg hr]
      exact ih (recoverIfPanicking_moved (statement_moved inputs h))

end

end Pixelwise.Compiler
