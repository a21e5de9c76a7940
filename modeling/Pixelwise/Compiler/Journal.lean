/-
The journal of a compilation — which tokens it asked the scanner for, which
it took, and how often it came to each place at which it calls itself or goes
round.

The compiler holds the token ahead.  Moving on takes that token and pulls the
next one from the scanner; an unexpected character is taken as soon as it is
pulled, and another token is pulled in its place.  At the end of the source
the scanner gives the last token as often as it is asked, so there taking and
pulling go on without bringing the compiler further.

The functions follow the equations of the grammar, and the states in between
are those that the grammar gives.
-/
import Pixelwise.Compiler.Program

namespace Pixelwise.Compiler

/-- The places at which the compiler calls itself or goes round. -/
inductive Site where
  /-- An expression is asked for: by a statement, or within another expression
  by a parenthesis, an operator, an assignment or an argument. -/
  | expression
  /-- Another operator follows an operand. -/
  | operator
  /-- An argument of a call is asked for. -/
  | argument
  /-- A statement is asked for. -/
  | statement
  /-- An unexpected character is met. -/
  | stray
  /-- Recovery looks whether it is done. -/
  | skipping
deriving DecidableEq, Repr

/-- What a journal tells. -/
inductive Event where
  | visit (site : Site)
  /-- The token ahead was taken. -/
  | take (t : Token)
  /-- The scanner gave a token, which is now ahead. -/
  | pull (t : Token)
deriving DecidableEq, Repr

/-- The tokens that were taken, in order. -/
def takes (journal : List Event) : List Token :=
  journal.filterMap fun
    | .take t => some t
    | _ => none

/-- The tokens that the scanner gave, in order. -/
def pulls (journal : List Event) : List Token :=
  journal.filterMap fun
    | .pull t => some t
    | _ => none

section

variable (p : Site) (t : Token) (J K : List Event)

@[simp] theorem takes_nil : takes [] = [] := rfl

@[simp] theorem takes_visit : takes (.visit p :: J) = takes J := rfl

@[simp] theorem takes_take : takes (.take t :: J) = t :: takes J := rfl

@[simp] theorem takes_pull : takes (.pull t :: J) = takes J := rfl

@[simp] theorem takes_append : takes (J ++ K) = takes J ++ takes K := List.filterMap_append

@[simp] theorem pulls_nil : pulls [] = [] := rfl

@[simp] theorem pulls_visit : pulls (.visit p :: J) = pulls J := rfl

@[simp] theorem pulls_take : pulls (.take t :: J) = pulls J := rfl

@[simp] theorem pulls_pull : pulls (.pull t :: J) = t :: pulls J := rfl

@[simp] theorem pulls_append : pulls (J ++ K) = pulls J ++ pulls K := List.filterMap_append

end

/-! ## Moving through the tokens -/

/-- Pull tokens until one of the language is ahead, where `tokens` are still
to come and then nothing but `final`. -/
def settleJournal (final : Token) : List Token → List Event
  | [] => [.pull final]
  | t :: rest =>
    match t.kind with
    | .unexpected _ => .pull t :: .visit .stray :: .take t :: settleJournal final rest
    | _ => [.pull t]

namespace State

def advanceJournal (s : State) : List Event :=
  .take s.current :: settleJournal s.final s.pending.tail

/-- What is taken and pulled depends on nothing but the tokens. -/
theorem advanceJournal_congr {r s : State} (hp : r.pending = s.pending) (hf : r.final = s.final) :
    r.advanceJournal = s.advanceJournal := by
  rw [advanceJournal, advanceJournal, current, current, hp, hf]

def expectJournal (s : State) (what : Expectation) : List Event :=
  if s.ahead = what.kind then s.advanceJournal else []

def refuseJournal (s : State) (canAssign : Bool) : List Event :=
  if canAssign ∧ s.ahead = .equal then s.advanceJournal else []

/-- The state in which the arguments of a call are read, after the name that
is called. -/
def called (s : State) (inputs : List String) (token : Token) : State :=
  if (Builtin.ofName? token.lexeme).isSome then (s.emit (.get token.lexeme)).advance
  else ((s.checkDefined inputs token).emit (.get token.lexeme)).advance.report token .notCallable

theorem called_pending_lt (s : State) (inputs : List String) (token : Token)
    (h : s.ahead ≠ .endOfInput) : (s.called inputs token).pending.length < s.pending.length := by
  rw [called]
  split
  · exact (s.emit (.get token.lexeme)).advance_pending_lt h
  · have hlt := ((s.checkDefined inputs token).emit (.get token.lexeme)).advance_pending_lt
      (by simpa using h)
    rwa [State.pending_emit, State.pending_checkDefined, ← pending_report _ token .notCallable]
      at hlt

end State

/-! ## The grammar -/

mutual

def expressionJournal (inputs : List String) (level : Precedence) (s : State) : List Event :=
  .visit .expression :: s.advanceJournal ++
    match _h : s.ahead.opening with
    | none => []
    | some opening =>
      let first := operand inputs opening s.current (level ≤ .assignment) s.advance
      operandJournal inputs opening s.current (level ≤ .assignment) s.advance ++
        operatorsJournal inputs level first ++
        (operators inputs level first).refuseJournal (level ≤ .assignment)
termination_by 4 * s.pending.length + 0
decreasing_by
  · have := s.advance_pending_lt (ahead_ne_of_opening _h)
    omega
  · have := s.advance_pending_lt (ahead_ne_of_opening _h)
    have := operand_pending_le inputs opening s.current (level ≤ .assignment) s.advance
    omega

def operandJournal (inputs : List String) (opening : Opening) (token : Token) (canAssign : Bool)
    (s : State) : List Event :=
  match opening with
  | .grouping =>
    expressionJournal inputs .assignment s ++
      (expression inputs .assignment s).expectJournal .parenAfterExpression
  | .unary _ => expressionJournal inputs .unary s
  | .number => []
  | .variable =>
    if _h : canAssign ∧ s.ahead = .equal then
      s.advanceJournal ++ expressionJournal inputs .assignment (s.advance.checkTarget inputs token)
    else if _h : s.ahead = .leftParen then
      s.advanceJournal ++ argumentsJournal inputs (s.called inputs token)
    else []
termination_by 4 * s.pending.length + 1
decreasing_by
  · omega
  · omega
  · have := s.advance_pending_lt (by simp [_h.2])
    simp only [State.pending_checkTarget]
    omega
  · have := s.called_pending_lt inputs token (by simp [_h])
    omega

def operatorsJournal (inputs : List String) (level : Precedence) (s : State) : List Event :=
  match _h : s.ahead.operator with
  | none => []
  | some op =>
    if level ≤ op.precedence then
      let right := expression inputs op.precedence.next s.advance
      .visit .operator :: s.advanceJournal ++
        expressionJournal inputs op.precedence.next s.advance ++
        operatorsJournal inputs level (right.emitAll op.code)
    else []
termination_by 4 * s.pending.length + 1
decreasing_by
  · have := s.advance_pending_lt (ahead_ne_of_operator _h)
    omega
  · have := s.advance_pending_lt (ahead_ne_of_operator _h)
    have := expression_pending_le inputs op.precedence.next s.advance
    simp only [State.pending_emitAll]
    omega

def argumentsJournal (inputs : List String) (s : State) : List Event :=
  if s.ahead = .rightParen then s.expectJournal .parenAfterArguments
  else
    argumentJournal inputs 0 s ++ (argument inputs 0 s).1.expectJournal .parenAfterArguments
termination_by 4 * s.pending.length + 2
decreasing_by omega

def argumentJournal (inputs : List String) (count : Nat) (s : State) : List Event :=
  let value := (expression inputs .assignment s).checkCount count
  .visit .argument :: expressionJournal inputs .assignment s ++
    if _h : value.ahead = .comma then
      value.advanceJournal ++ argumentJournal inputs (count + 1) value.advance
    else []
termination_by 4 * s.pending.length + 1
decreasing_by
  · omega
  · have := value.advance_pending_lt (by simp [_h])
    have := expression_pending_le inputs .assignment s
    simp only [value, State.pending_checkCount] at *
    omega

end

/-! ## Programs -/

namespace State

def skipJournal (s : State) : List Event :=
  if _ : s.pending = [] then []
  else if s.previous.kind = .semicolon then [.visit .skipping]
  else .visit .skipping :: s.advanceJournal ++ s.advance.skipJournal
termination_by s.pending.length
decreasing_by
  have := s.advance_pending_le
  have := List.length_pos_iff.mpr (by assumption)
  omega

def recoverJournal (s : State) : List Event :=
  if s.panicking then { s with panicking := false }.skipJournal else []

end State

def statementJournal (inputs : List String) (s : State) : List Event :=
  expressionJournal inputs .assignment s ++
    (expression inputs .assignment s).expectJournal .semicolonAfterExpression

/-- At the end of the source its last token is taken once more. -/
def statementsJournal (inputs : List String) (s : State) : List Event :=
  if _ : s.pending = [] then s.advanceJournal
  else
    .visit .statement :: statementJournal inputs s ++ (statement inputs s).recoverJournal ++
      statementsJournal inputs (statement inputs s).recoverIfPanicking
termination_by s.pending.length
decreasing_by
  have := (statement inputs s).recoverIfPanicking_pending_le
  have := statement_pending_le inputs s
  have := List.length_pos_iff.mpr (by assumption)
  omega

/-- The journal of a whole compilation, given the names assigned before it. -/
def journal (assigned inputs : List String) (source : String) : List Event :=
  settleJournal (Token.endOf source) (Token.scan source) ++
    statementsJournal inputs (State.start assigned (Token.scan source) (Token.endOf source))

end Pixelwise.Compiler
