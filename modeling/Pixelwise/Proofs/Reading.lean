/-
Readings — the calls that the functions of the grammar make of one another,
as a relation.

`Reads part s r n` says that reading a part of an expression takes the
state `s` to `r`, where `n` counts the arguments of a call.  Each rule is
one path through one of the functions, so an induction over a reading is an
induction over the calls, whatever the tokens are.

Main statements: `reads_expression` and its companions, that the functions
read, and `Reads.keeps`, that what every step keeps to holds over every
reading.
-/
import Pixelwise.Proofs.Progress

namespace Pixelwise.Compiler

/-- What the functions of the grammar read. -/
inductive Part where
  | expression (level : Precedence)
  | operand (opening : Opening) (token : Token) (canAssign : Bool)
  | operators (level : Precedence)
  | arguments
  | argument (count : Nat)

/-- One path through the functions of the grammar. -/
inductive Reads (inputs : List String) : Part → State → State → Nat → Prop
  /-- No expression opens with the token ahead. -/
  | missing {level : Precedence} {s : State} :
      s.ahead.opening = none →
      Reads inputs (.expression level) s (s.advance.report s.current .expectedExpression) 0
  | opened {level : Precedence} {o : Opening} {s r q : State} :
      s.ahead.opening = some o →
      Reads inputs (.operand o s.current (decide (level ≤ .assignment))) s.advance r 0 →
      Reads inputs (.operators level) r q 0 →
      Reads inputs (.expression level) s (q.refuseTarget (decide (level ≤ .assignment))) 0
  | group {t : Token} {b : Bool} {s r : State} :
      Reads inputs (.expression .assignment) s r 0 →
      Reads inputs (.operand .grouping t b) s (r.expect .parenAfterExpression) 0
  | unary {op : UnaryOp} {t : Token} {b : Bool} {s r : State} :
      Reads inputs (.expression .unary) s r 0 →
      Reads inputs (.operand (.unary op) t b) s (r.emit (.unary op)) 0
  | number {t : Token} {b : Bool} {s : State} :
      Reads inputs (.operand .number t b) s (s.number t) 0
  | assign {t : Token} {s r : State} :
      s.ahead = .equal →
      Reads inputs (.expression .assignment) (s.advance.checkTarget inputs t) r 0 →
      Reads inputs (.operand .variable t true) s (r.bind inputs t.lexeme) 0
  | call {t : Token} {b : Bool} {f : Builtin} {s r : State} {argc : Nat} :
      Builtin.ofName? t.lexeme = some f → s.ahead = .leftParen →
      Reads inputs .arguments (s.emit (.get t.lexeme)).advance r argc →
      Reads inputs (.operand .variable t b) s ((r.checkArity t f argc).emit (.call argc)) 0
  /-- The name of a function without a call. -/
  | function {t : Token} {b : Bool} {f : Builtin} {s : State} :
      ¬ (b = true ∧ s.ahead = .equal) → Builtin.ofName? t.lexeme = some f →
      s.ahead ≠ .leftParen →
      Reads inputs (.operand .variable t b) s
        ((s.emit (.get t.lexeme)).report t (.functionNotCalled t.lexeme)) 0
  /-- A call of a name that is no function's. -/
  | callOther {t : Token} {b : Bool} {s r : State} {argc : Nat} :
      Builtin.ofName? t.lexeme = none → s.ahead = .leftParen →
      Reads inputs .arguments
        (((s.checkDefined inputs t).emit (.get t.lexeme)).advance.report t .notCallable) r argc →
      Reads inputs (.operand .variable t b) s (r.emit (.call argc)) 0
  | name {t : Token} {b : Bool} {s : State} :
      ¬ (b = true ∧ s.ahead = .equal) → Builtin.ofName? t.lexeme = none →
      s.ahead ≠ .leftParen →
      Reads inputs (.operand .variable t b) s ((s.checkDefined inputs t).emit (.get t.lexeme)) 0
  | stop {level : Precedence} {s : State} :
      (∀ op, s.ahead.operator = some op → ¬ level ≤ op.precedence) →
      Reads inputs (.operators level) s s 0
  | join {level : Precedence} {op : Operator} {s r q : State} :
      s.ahead.operator = some op → level ≤ op.precedence →
      Reads inputs (.expression op.precedence.next) s.advance r 0 →
      Reads inputs (.operators level) (r.emitAll op.code) q 0 →
      Reads inputs (.operators level) s q 0
  | noArguments {s : State} :
      s.ahead = .rightParen →
      Reads inputs .arguments s (s.expect .parenAfterArguments) 0
  | arguments {s r : State} {argc : Nat} :
      s.ahead ≠ .rightParen → Reads inputs (.argument 0) s r argc →
      Reads inputs .arguments s (r.expect .parenAfterArguments) argc
  | lastArgument {count : Nat} {s r : State} :
      Reads inputs (.expression .assignment) s r 0 →
      (r.checkCount count).ahead ≠ .comma →
      Reads inputs (.argument count) s (r.checkCount count) (min (count + 1) maxArguments)
  | moreArguments {count argc : Nat} {s r q : State} :
      Reads inputs (.expression .assignment) s r 0 →
      (r.checkCount count).ahead = .comma →
      Reads inputs (.argument (count + 1)) (r.checkCount count).advance q argc →
      Reads inputs (.argument count) s q argc

variable {inputs : List String}

/-! ## The functions read -/

mutual

theorem reads_expression (level : Precedence) (s : State) :
    Reads inputs (.expression level) s (expression inputs level s) 0 := by
  rw [expression_eq]
  cases h : s.ahead.opening with
  | none => exact .missing h
  | some o =>
      have hs := s.advance_pending_lt (ahead_ne_of_opening h)
      have ho := operand_pending_le inputs o s.current (decide (level ≤ .assignment)) s.advance
      exact .opened h (reads_operand o _ _ s.advance) (reads_operators level _)
termination_by 4 * s.pending.length + 0
decreasing_by all_goals omega

theorem reads_operand (o : Opening) (t : Token) (b : Bool) (s : State) :
    Reads inputs (.operand o t b) s (operand inputs o t b s) 0 := by
  cases o with
  | grouping =>
      rw [operand_grouping]
      exact .group (reads_expression _ s)
  | unary op =>
      rw [operand_unary]
      exact .unary (reads_expression _ s)
  | number =>
      rw [operand_number]
      exact .number
  | «variable» =>
      rw [operand_variable]
      by_cases he : b = true ∧ s.ahead = .equal
      · have hs : (s.advance.checkTarget inputs t).pending.length < s.pending.length := by
          rw [State.pending_checkTarget]
          exact s.advance_pending_lt (by simp [he.2])
        rw [if_pos he]
        obtain ⟨rfl, he⟩ := he
        exact .assign he (reads_expression _ _)
      · rw [if_neg he]
        cases hf : Builtin.ofName? t.lexeme with
        | some f =>
            by_cases hp : s.ahead = .leftParen
            · have hs : (s.emit (.get t.lexeme)).advance.pending.length < s.pending.length :=
                (s.emit (.get t.lexeme)).advance_pending_lt (by simp [hp])
              simp only [if_pos hp]
              exact .call hf hp (reads_arguments _)
            · simp only [if_neg hp]
              exact .function he hf hp
        | none =>
            by_cases hp : s.ahead = .leftParen
            · have hs : (((s.checkDefined inputs t).emit (.get t.lexeme)).advance.report t
                  .notCallable).pending.length < s.pending.length := by
                have := ((s.checkDefined inputs t).emit (.get t.lexeme)).advance_pending_lt
                  (by simp [hp])
                rwa [State.pending_emit, State.pending_checkDefined,
                  ← State.pending_report _ t .notCallable] at this
              simp only [if_pos hp]
              exact .callOther hf hp (reads_arguments _)
            · simp only [if_neg hp]
              exact .name he hf hp
termination_by 4 * s.pending.length + 1
decreasing_by all_goals omega

theorem reads_operators (level : Precedence) (s : State) :
    Reads inputs (.operators level) s (operators inputs level s) 0 := by
  rw [operators_eq]
  cases h : s.ahead.operator with
  | none => exact .stop fun op ho => absurd (h.symm.trans ho) (by simp)
  | some op =>
      by_cases hl : level ≤ op.precedence
      · have hs := s.advance_pending_lt (ahead_ne_of_operator h)
        have hr : ((expression inputs op.precedence.next s.advance).emitAll
            op.code).pending.length < s.pending.length := by
          have := expression_pending_le inputs op.precedence.next s.advance
          rw [State.pending_emitAll]
          omega
        simp only [if_pos hl]
        exact .join h hl (reads_expression _ _) (reads_operators level _)
      · simp only [if_neg hl]
        exact .stop fun op' ho => by
          cases h.symm.trans ho
          exact hl
termination_by 4 * s.pending.length + 1
decreasing_by all_goals omega

theorem reads_arguments (s : State) :
    Reads inputs .arguments s (arguments inputs s).1 (arguments inputs s).2 := by
  rw [arguments_eq]
  by_cases h : s.ahead = .rightParen
  · rw [if_pos h]
    exact .noArguments h
  · rw [if_neg h]
    exact .arguments h (reads_argument 0 s)
termination_by 4 * s.pending.length + 2
decreasing_by all_goals omega

theorem reads_argument (count : Nat) (s : State) :
    Reads inputs (.argument count) s (argument inputs count s).1 (argument inputs count s).2 := by
  rw [argument_eq]
  by_cases h : ((expression inputs .assignment s).checkCount count).ahead = .comma
  · have hs : ((expression inputs .assignment s).checkCount count).advance.pending.length <
        s.pending.length := by
      have := ((expression inputs .assignment s).checkCount count).advance_pending_lt (by simp [h])
      have := expression_pending_le inputs .assignment s
      rw [State.pending_checkCount] at *
      omega
    rw [if_pos h]
    exact .moreArguments (reads_expression _ s) h (reads_argument _ _)
  · rw [if_neg h]
    exact .lastArgument (reads_expression _ s) h
termination_by 4 * s.pending.length + 1
decreasing_by all_goals omega

end

/-! ## What every reading keeps -/

/-- A reading is a sequence of steps. -/
theorem Reads.keeps {R : State → State → Prop} (hR : Stepwise R) {part : Part} {s r : State}
    {n : Nat} (h : Reads inputs part s r n) : R s r := by
  induction h with
  | missing => exact hR.trans (hR.advance _) (hR.report _ _ _)
  | opened _ _ _ ih₁ ih₂ =>
      exact hR.trans (hR.trans (hR.advance _) ih₁) (hR.trans ih₂ (hR.refuseTarget _ _))
  | group _ ih => exact hR.trans ih (hR.expect _ _)
  | unary _ ih => exact hR.trans ih (hR.emit _ _)
  | number => exact hR.number _ _
  | assign _ _ ih =>
      exact hR.trans (hR.trans (hR.advance _) (hR.check (.target _ _ _)))
        (hR.trans ih (hR.bind _ _ _))
  | call _ _ _ ih =>
      exact hR.trans (hR.trans (hR.emit _ _) (hR.advance _))
        (hR.trans ih (hR.trans (hR.check (.arity _ _ _ _)) (hR.emit _ _)))
  | function => exact hR.trans (hR.emit _ _) (hR.report _ _ _)
  | callOther _ _ _ ih =>
      have h := hR.trans (hR.advance _) (hR.trans (hR.report _ _ _) ih)
      exact hR.trans (hR.trans (hR.check (.defined _ _ _)) (hR.trans (hR.emit _ _) h))
        (hR.emit _ _)
  | name => exact hR.trans (hR.check (.defined _ _ _)) (hR.emit _ _)
  | stop => exact hR.refl _
  | join _ _ _ _ ih₁ ih₂ =>
      exact hR.trans (hR.trans (hR.advance _) ih₁) (hR.trans (hR.emitAll _ _) ih₂)
  | noArguments => exact hR.expect _ _
  | arguments _ _ ih => exact hR.trans ih (hR.expect _ _)
  | lastArgument _ _ ih => exact hR.trans ih (hR.check (.count _ _))
  | moreArguments _ _ _ ih₁ ih₂ =>
      exact hR.trans (hR.trans ih₁ (hR.check (.count _ _))) (hR.trans (hR.advance _) ih₂)

theorem Reads.goes {part : Part} {s r : State} {n : Nat} (h : Reads inputs part s r n) :
    Goes s r :=
  h.keeps Goes.stepwise

theorem expression_goes (inputs : List String) (level : Precedence) (s : State) :
    Goes s (expression inputs level s) :=
  (reads_expression level s).goes

theorem operand_goes (inputs : List String) (o : Opening) (t : Token) (b : Bool) (s : State) :
    Goes s (operand inputs o t b s) :=
  (reads_operand o t b s).goes

theorem operators_goes (inputs : List String) (level : Precedence) (s : State) :
    Goes s (operators inputs level s) :=
  (reads_operators level s).goes

theorem argument_goes (inputs : List String) (count : Nat) (s : State) :
    Goes s (argument inputs count s).1 :=
  (reads_argument count s).goes

end Pixelwise.Compiler
