/-
Logging — the compiler with a log is the compiler, and its log is the journal.

The number on which the logging functions recurse bounds how deep they call each
other, as the measures of the grammar do; a call with more than its measure never
runs out (`expression_logs`).

Main statement: `finishLogged_eq`.
-/
import Pixelwise.Compiler.Logged
import Pixelwise.Proofs.Reading

namespace Pixelwise.Compiler

open Syntax

/-! ## Moving through the tokens -/

namespace State

theorem settleLogged_eq (s : State) (ts : List Token) :
    s.settleLogged ts = ⟨s.settle ts, settleJournal s.final ts⟩ := by
  induction ts generalizing s with
  | nil => rfl
  | cons t rest ih =>
      rw [settleLogged, settle, settleJournal]
      cases hkind : t.kind with
      | unexpected c =>
          have hfinal := (Goes.report s t (.unexpectedCharacter c)).final
          dsimp only
          rw [ih, hfinal]
      | _ => rfl

theorem advanceLogged_eq (s : State) : s.advanceLogged = ⟨s.advance, s.advanceJournal⟩ := by
  rw [advanceLogged, settleLogged_eq]
  rfl

theorem expectLogged_eq (what : Expectation) (s : State) :
    s.expectLogged what = ⟨s.expect what, s.expectJournal what⟩ := by
  rw [expectLogged, expect, expectJournal, advanceLogged_eq]
  split <;> rfl

theorem refuseLogged_eq (canAssign : Bool) (s : State) :
    s.refuseLogged canAssign = ⟨s.refuseTarget canAssign, s.refuseJournal canAssign⟩ := by
  rw [refuseLogged, refuseTarget, refuseJournal, advanceLogged_eq]
  split <;> rfl

end State

/-! ## The grammar -/

variable (inputs : List String)

mutual

theorem expression_logs (fuel : Nat) (level : Precedence) (s : State)
    (h : 4 * s.pending.length < fuel) :
    expressionLogged inputs fuel level s =
      ⟨expression inputs level s, expressionJournal inputs level s⟩ := by
  cases fuel with
  | zero => omega
  | succ fuel =>
      rw [expressionLogged, expression_eq, expressionJournal, State.advanceLogged_eq]
      cases ho : s.ahead.opening with
      | none => simp [Logged.visiting, Logged.quietly]
      | some o =>
          have hlt := s.advance_pending_lt (ahead_ne_of_opening ho)
          have hle := operand_pending_le inputs o s.current (decide (level ≤ .assignment)) s.advance
          have hoperand := operand_logs fuel o s.current (decide (level ≤ .assignment)) s.advance
            (by omega)
          have hoperators := operators_logs fuel level
            (operand inputs o s.current (decide (level ≤ .assignment)) s.advance) (by omega)
          simp [Logged.visiting, Logged.andThen, hoperand, hoperators, State.refuseLogged_eq]

theorem operand_logs (fuel : Nat) (o : Opening) (t : Token) (b : Bool) (s : State)
    (h : 4 * s.pending.length + 1 < fuel) :
    operandLogged inputs fuel o t b s =
      ⟨operand inputs o t b s, operandJournal inputs o t b s⟩ := by
  cases fuel with
  | zero => omega
  | succ fuel =>
      rw [operandJournal.eq_def]
      cases o with
      | grouping =>
          have hinner := expression_logs fuel .assignment s (by omega)
          rw [operandLogged, operand_grouping, hinner, Logged.andThen, State.expectLogged_eq]
      | unary op =>
          have hinner := expression_logs fuel .unary s (by omega)
          rw [operandLogged, operand_unary, hinner, Logged.quietly]
      | number => rw [operandLogged, operand_number, State.silent]
      | «variable» =>
          rw [operandLogged, operand_variable]
          dsimp only
          by_cases he : b = true ∧ s.ahead = .equal
          · have hlt := s.advance_pending_lt (by simp [he.2])
            have hcheck := congrArg List.length (State.pending_checkTarget s.advance inputs t)
            have hvalue := expression_logs fuel .assignment (s.advance.checkTarget inputs t)
              (by omega)
            rw [if_pos he, if_pos he, dif_pos he, State.advanceLogged_eq]
            simp only [Logged.andThen, Logged.quietly, hvalue]
          · rw [if_neg he, if_neg he, dif_neg he]
            by_cases hp : s.ahead = .leftParen
            · have hlt := s.called_pending_lt inputs t (by simp [hp])
              have hargs := arguments_logs fuel (s.called inputs t) (by omega)
              rw [dif_pos hp]
              cases hf : Builtin.ofName? t.lexeme with
              | some f =>
                  have hcalled : s.called inputs t = (s.emit (.get t.lexeme)).advance := by
                    rw [State.called, hf]
                    rfl
                  rw [hcalled] at hargs
                  rw [hcalled]
                  simp [Logged.andThen, Logged.quietly, State.advanceLogged_eq, hp, hargs]
                  rfl
              | none =>
                  have hcalled : s.called inputs t = ((s.checkDefined inputs t).emit
                      (.get t.lexeme)).advance.report t .notCallable := by
                    rw [State.called, hf]
                    rfl
                  have hjournal : ((s.checkDefined inputs t).emit
                      (.get t.lexeme)).advanceJournal = s.advanceJournal :=
                    State.advanceJournal_congr (State.pending_checkDefined ..)
                      (Goes.check (.defined ..)).final
                  rw [hcalled] at hargs
                  rw [hcalled]
                  simp [Logged.andThen, Logged.quietly, State.advanceLogged_eq, hp, hargs, hjournal]
            · rw [dif_neg hp]
              cases Builtin.ofName? t.lexeme <;> simp [hp, State.silent]

theorem operators_logs (fuel : Nat) (level : Precedence) (s : State)
    (h : 4 * s.pending.length + 1 < fuel) :
    operatorsLogged inputs fuel level s =
      ⟨operators inputs level s, operatorsJournal inputs level s⟩ := by
  cases fuel with
  | zero => omega
  | succ fuel =>
      rw [operatorsLogged, operators_eq, operatorsJournal]
      cases ho : s.ahead.operator with
      | none => rfl
      | some op =>
          have hlt := s.advance_pending_lt (ahead_ne_of_operator ho)
          have hle := expression_pending_le inputs op.precedence.next s.advance
          have hright := expression_logs fuel op.precedence.next s.advance (by omega)
          have hrest := operators_logs fuel level
            ((expression inputs op.precedence.next s.advance).emitAll op.code)
            (by rw [State.pending_emitAll]; omega)
          dsimp only
          split
          · simp [Logged.visiting, Logged.andThen, State.advanceLogged_eq, hright, hrest]
          · rfl

theorem arguments_logs (fuel : Nat) (s : State) (h : 4 * s.pending.length + 2 < fuel) :
    argumentsLogged inputs fuel s =
      (⟨(arguments inputs s).1, argumentsJournal inputs s⟩, (arguments inputs s).2) := by
  cases fuel with
  | zero => omega
  | succ fuel =>
      have hargument := argument_logs fuel 0 s (by omega)
      rw [argumentsLogged, arguments_eq, argumentsJournal]
      split
      · rw [State.expectLogged_eq]
      · simp only [hargument, Logged.andThen, State.expectLogged_eq]

theorem argument_logs (fuel count : Nat) (s : State) (h : 4 * s.pending.length + 1 < fuel) :
    argumentLogged inputs fuel count s =
      (⟨(argument inputs count s).1, argumentJournal inputs count s⟩,
        (argument inputs count s).2) := by
  cases fuel with
  | zero => omega
  | succ fuel =>
      have hvalue := expression_logs fuel .assignment s (by omega)
      rw [argumentLogged, argument_eq, argumentJournal, hvalue]
      by_cases hcomma :
          ((expression inputs .assignment s).checkCount count).ahead = .comma
      · have hlt := ((expression inputs .assignment s).checkCount count).advance_pending_lt
          (by simp [hcomma])
        have hle := expression_pending_le inputs .assignment s
        have hcount := congrArg List.length
          (State.pending_checkCount (expression inputs .assignment s) count)
        have hrest := argument_logs fuel (count + 1)
          ((expression inputs .assignment s).checkCount count).advance (by omega)
        simp [Logged.visiting, Logged.quietly, Logged.andThen, hcomma, State.advanceLogged_eq,
          hrest]
      · simp [Logged.visiting, Logged.quietly, hcomma]

end

/-! ## Programs -/

theorem State.skip_logs (fuel : Nat) (s : State) (h : s.pending.length < fuel) :
    State.skipLogged fuel s = ⟨s.skipStatement, s.skipJournal⟩ := by
  induction fuel generalizing s with
  | zero => omega
  | succ fuel ih =>
      rw [skipLogged, skipStatement, skipJournal]
      by_cases hp : s.pending = []
      · rw [if_pos hp, dif_pos hp, dif_pos hp, silent]
      · have hpos := List.length_pos_iff.mpr hp
        have hle := s.advance_pending_le
        have hrest := ih s.advance (by omega)
        rw [if_neg hp, dif_neg hp, dif_neg hp]
        split
        · rfl
        · simp only [Logged.visiting, Logged.andThen, advanceLogged_eq, hrest, List.cons_append]

theorem State.recover_logs (fuel : Nat) (s : State) (h : s.pending.length < fuel) :
    s.recoverLogged fuel = ⟨s.recoverIfPanicking, s.recoverJournal⟩ := by
  rw [recoverLogged, recoverIfPanicking, recoverJournal]
  split
  · exact skip_logs fuel { s with panicking := false } h
  · rfl

theorem statement_logs (fuel : Nat) (s : State) (h : 4 * s.pending.length < fuel) :
    statementLogged inputs fuel s = ⟨statement inputs s, statementJournal inputs s⟩ := by
  rw [statementLogged, expression_logs inputs fuel .assignment s h]
  simp only [Logged.andThen, Logged.quietly, State.expectLogged_eq]
  rfl

theorem statements_logs (fuel : Nat) (s : State) (h : s.pending.length < fuel) :
    statementsLogged inputs fuel s = ⟨statements inputs s, statementsJournal inputs s⟩ := by
  induction fuel generalizing s with
  | zero => omega
  | succ fuel ih =>
      rw [statementsLogged, statements, statementsJournal]
      by_cases hp : s.pending = []
      · rw [if_pos hp, dif_pos hp, dif_pos hp, State.advanceLogged_eq]
      · have hpos := List.length_pos_iff.mpr hp
        have hstatement := statement_logs inputs (4 * s.pending.length + 1) s (Nat.lt_succ_self _)
        have hle := statement_pending_le inputs s
        have hrecover := (statement inputs s).recover_logs (s.pending.length + 1) (by omega)
        have hle' := (statement inputs s).recoverIfPanicking_pending_le
        have hrest := ih (statement inputs s).recoverIfPanicking (by omega)
        rw [if_neg hp, dif_neg hp, dif_neg hp]
        simp only [Logged.visiting, Logged.andThen, hstatement, hrecover, hrest]

/-- The compiler with a log comes to the state that the compiler comes to, and
its log is the journal. -/
theorem finishLogged_eq (assigned : List String) (source : String) :
    finishLogged assigned inputs source =
      ⟨finish assigned inputs source, journal assigned inputs source⟩ := by
  have hle := State.settle_pending_le
    { previous := Token.endOf source, pending := [], final := Token.endOf source,
      panicking := false, assigned, diagnostics := #[], emitted := #[] } (Token.scan source)
  have hstatements := statements_logs inputs ((Token.scan source).length + 1)
    (State.start assigned (Token.scan source) (Token.endOf source)) (Nat.lt_succ_of_le hle)
  rw [finishLogged, State.settleLogged_eq]
  dsimp only [Logged.andThen]
  rw [State.start] at hstatements
  rw [hstatements]
  rfl

end Pixelwise.Compiler
