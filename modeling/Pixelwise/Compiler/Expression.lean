/-
Expressions — the grammar of the language, read by precedence and compiled
as it is read.

An expression opens with an operand and goes on while operators follow that
bind at least as tightly as the level asked for.  Code is emitted in the
order in which operands are complete, so no tree is ever built.

The functions of the grammar call one another.  They return their state
together with the proof that no token came back, and that is what ends the
recursion; `expression` and its companions give the state alone.

Main statements: the equations `expression_eq`, `operand_variable`,
`operators_eq`, `arguments_eq` and `argument_eq`, which are the grammar, and
the `…_pending_le` lemmas, which say that it takes tokens and gives none
back.
-/
import Pixelwise.Builtin.Basic
import Pixelwise.Compiler.State
import Pixelwise.Decimal.Literal

namespace Pixelwise.Compiler

/-- The most arguments that a call can have. -/
def maxArguments : Nat := 255

namespace State

/-! ## Steps of the grammar that take no part in its recursion -/

/-- Emit the constant that a number token stands for. -/
def number (s : State) (token : Token) : State :=
  match Decimal.read? token.lexeme with
  | some value => s.emit (.constant value)
  | none => (s.report token (.invalidNumber token.lexeme)).emit (.constant 0)

/-- Report an assignment to a name that programs cannot assign. -/
def checkTarget (s : State) (inputs : List String) (token : Token) : State :=
  if (Builtin.ofName? token.lexeme).isSome then
    s.report token (.assignToFunction token.lexeme)
  else if token.lexeme ∈ inputs then s.report token (.assignToInput token.lexeme)
  else s

/-- Emit the binding of a name to the value on the stack, which stays the
value of the assignment, and count the name as assigned if it may be. -/
def bind (s : State) (inputs : List String) (name : String) : State :=
  if (Builtin.ofName? name).isSome || name ∈ inputs then s.emitAll [.set name, .get name]
  else (s.emitAll [.set name, .get name]).assign name

/-- Report a name that is read but stands for nothing yet. -/
def checkDefined (s : State) (inputs : List String) (token : Token) : State :=
  if token.lexeme ∈ inputs || token.lexeme ∈ s.assigned then s
  else s.report token (.undefinedName token.lexeme)

/-- Report a call with the wrong number of arguments. -/
def checkArity (s : State) (token : Token) (f : Builtin) (found : Nat) : State :=
  if found = f.arity then s
  else s.report token (.arityMismatch token.lexeme f.arity found)

/-- Report the argument just read when it comes after `count` others and
they are as many as a call can have. -/
def checkCount (s : State) (count : Nat) : State :=
  if count = maxArguments then s.report s.previous .tooManyArguments else s

/-- Report an assignment sign after an expression that is no name. -/
def refuseTarget (s : State) (canAssign : Bool) : State :=
  if canAssign ∧ s.ahead = .equal then s.advance.report s.current .invalidTarget else s

@[simp] theorem pending_number (s : State) (t : Token) :
    (s.number t).pending = s.pending := by
  unfold number
  split <;> simp

@[simp] theorem pending_checkTarget (s : State) (inputs : List String) (t : Token) :
    (s.checkTarget inputs t).pending = s.pending := by
  unfold checkTarget
  repeat' split
  all_goals simp

@[simp] theorem pending_bind (s : State) (inputs : List String) (name : String) :
    (s.bind inputs name).pending = s.pending := by
  unfold bind
  split <;> simp

@[simp] theorem pending_checkDefined (s : State) (inputs : List String) (t : Token) :
    (s.checkDefined inputs t).pending = s.pending := by
  unfold checkDefined
  split <;> simp

@[simp] theorem pending_checkArity (s : State) (t : Token) (f : Builtin) (found : Nat) :
    (s.checkArity t f found).pending = s.pending := by
  unfold checkArity
  split <;> simp

@[simp] theorem pending_checkCount (s : State) (count : Nat) :
    (s.checkCount count).pending = s.pending := by
  unfold checkCount
  split <;> simp

theorem refuseTarget_pending_le (s : State) (canAssign : Bool) :
    (s.refuseTarget canAssign).pending.length ≤ s.pending.length := by
  unfold refuseTarget
  split
  · simpa using Nat.le_trans s.advance_pending_le (Nat.sub_le ..)
  · simp

@[simp] theorem ahead_emit (s : State) (i : Instruction) : (s.emit i).ahead = s.ahead := rfl

@[simp] theorem ahead_report (s : State) (t : Token) (p : Problem) :
    (s.report t p).ahead = s.ahead := by
  simp [ahead]

@[simp] theorem ahead_checkDefined (s : State) (inputs : List String) (t : Token) :
    (s.checkDefined inputs t).ahead = s.ahead := by
  simp [ahead]

theorem advance_pending_lt (s : State) (h : s.ahead ≠ .endOfInput) :
    s.advance.pending.length < s.pending.length := by
  have := pending_pos h
  have := advance_pending_le s
  omega

end State

/-! ## The grammar -/

/-- States with at most `n` tokens left. -/
abbrev Within (n : Nat) := { s : State // s.pending.length ≤ n }

theorem ahead_ne_of_opening {s : State} {o : Opening} (h : s.ahead.opening = some o) :
    s.ahead ≠ .endOfInput := by
  intro e
  simp [e, Token.Kind.opening] at h

theorem ahead_ne_of_operator {s : State} {o : Operator} (h : s.ahead.operator = some o) :
    s.ahead ≠ .endOfInput := by
  intro e
  simp [e, Token.Kind.operator] at h

mutual

/-- An expression whose operators bind at least as tightly as `level`. -/
def expressionWithin (inputs : List String) (level : Precedence) (s : State) :
    Within (s.pending.length - 1) :=
  match h : s.ahead.opening with
  | none => ⟨s.advance.report s.current .expectedExpression, by
      simpa using s.advance_pending_le⟩
  | some opening =>
    have hs := s.advance_pending_lt (ahead_ne_of_opening h)
    let ⟨first, hf⟩ := operandWithin inputs opening s.current (level ≤ .assignment) s.advance
    let ⟨whole, hw⟩ := operatorsWithin inputs level first
    ⟨whole.refuseTarget (level ≤ .assignment),
      Nat.le_trans (whole.refuseTarget_pending_le _)
        (Nat.le_trans hw (Nat.le_trans hf (Nat.le_sub_one_of_lt hs)))⟩
termination_by 4 * s.pending.length + 0
decreasing_by
  · omega
  · omega

/-- The rest of an operand that was opened by `token`, the token taken
last. -/
def operandWithin (inputs : List String) (opening : Opening) (token : Token) (canAssign : Bool)
    (s : State) : Within s.pending.length :=
  match opening with
  | .grouping =>
    let ⟨inner, hi⟩ := expressionWithin inputs .assignment s
    ⟨inner.expect .parenAfterExpression,
      Nat.le_trans (inner.expect_pending_le _) (Nat.le_trans hi (Nat.sub_le ..))⟩
  | .unary op =>
    let ⟨inner, hi⟩ := expressionWithin inputs .unary s
    ⟨inner.emit (.unary op), by simpa using Nat.le_trans hi (Nat.sub_le ..)⟩
  | .number => ⟨s.number token, by simp⟩
  | .variable =>
    if h : canAssign ∧ s.ahead = .equal then
      have hs := s.advance_pending_lt (by simp [h.2])
      let ⟨value, hv⟩ := expressionWithin inputs .assignment (s.advance.checkTarget inputs token)
      ⟨value.bind inputs token.lexeme, by
        simp only [State.pending_checkTarget, State.pending_bind] at *
        exact Nat.le_trans hv (Nat.le_trans (Nat.sub_le ..) (Nat.le_of_lt hs))⟩
    else
      match Builtin.ofName? token.lexeme with
      | some f =>
        if hp : s.ahead = .leftParen then
          have hs := (s.emit (.get token.lexeme)).advance_pending_lt (by simp [hp])
          let ⟨⟨args, argc⟩, ha⟩ := argumentsWithin inputs (s.emit (.get token.lexeme)).advance
          ⟨(args.checkArity token f argc).emit (.call argc), by
            simp only [State.pending_emit, State.pending_checkArity] at *
            exact Nat.le_trans ha (Nat.le_of_lt hs)⟩
        else ⟨(s.emit (.get token.lexeme)).report token (.functionNotCalled token.lexeme), by simp⟩
      | none =>
        if hp : s.ahead = .leftParen then
          have hs := ((s.checkDefined inputs token).emit (.get token.lexeme)).advance_pending_lt
            (by simp [hp])
          let ⟨⟨args, argc⟩, ha⟩ := argumentsWithin inputs
            (((s.checkDefined inputs token).emit (.get token.lexeme)).advance.report token
              .notCallable)
          ⟨args.emit (.call argc), by
            simp only [State.pending_emit, State.pending_report, State.pending_checkDefined] at *
            exact Nat.le_trans ha (Nat.le_of_lt hs)⟩
        else ⟨(s.checkDefined inputs token).emit (.get token.lexeme), by simp⟩
termination_by 4 * s.pending.length + 1
decreasing_by
  · omega
  · omega
  · simp only [State.pending_checkTarget]; omega
  · simp only [State.pending_emit] at hs; omega
  · simp only [State.pending_emit, State.pending_checkDefined, State.pending_report] at *
    omega

/-- The operators that follow an operand and bind at least as tightly as
`level`, each with its right operand. -/
def operatorsWithin (inputs : List String) (level : Precedence) (s : State) :
    Within s.pending.length :=
  match h : s.ahead.operator with
  | none => ⟨s, Nat.le_refl _⟩
  | some op =>
    if level ≤ op.precedence then
      have hs := s.advance_pending_lt (ahead_ne_of_operator h)
      let ⟨right, hr⟩ := expressionWithin inputs op.precedence.next s.advance
      let ⟨rest, ht⟩ := operatorsWithin inputs level (right.emitAll op.code)
      ⟨rest, by
        simp only [State.pending_emitAll] at ht
        exact Nat.le_trans ht (Nat.le_trans hr (Nat.le_trans (Nat.sub_le ..) (Nat.le_of_lt hs)))⟩
    else ⟨s, Nat.le_refl _⟩
termination_by 4 * s.pending.length + 1
decreasing_by
  · omega
  · simp only [State.pending_emitAll]; omega

/-- The arguments after an opening parenthesis, up to the closing one, and
how many they are. -/
def argumentsWithin (inputs : List String) (s : State) :
    { r : State × Nat // r.1.pending.length ≤ s.pending.length } :=
  if s.ahead = .rightParen then ⟨(s.expect .parenAfterArguments, 0), s.expect_pending_le _⟩
  else
    let ⟨⟨args, argc⟩, ha⟩ := argumentWithin inputs 0 s
    ⟨(args.expect .parenAfterArguments, argc),
      Nat.le_trans (args.expect_pending_le .parenAfterArguments) ha⟩
termination_by 4 * s.pending.length + 2
decreasing_by omega

/-- One argument after `count` others, and those that follow it; a call has
at most `maxArguments`. -/
def argumentWithin (inputs : List String) (count : Nat) (s : State) :
    { r : State × Nat // r.1.pending.length ≤ s.pending.length } :=
  let ⟨value, hv⟩ := expressionWithin inputs .assignment s
  if h : (value.checkCount count).ahead = .comma then
    have hs := (value.checkCount count).advance_pending_lt (by simp [h])
    let ⟨rest, hr⟩ := argumentWithin inputs (count + 1) (value.checkCount count).advance
    ⟨rest, by
      simp only [State.pending_checkCount] at *
      exact Nat.le_trans hr (Nat.le_trans (Nat.le_of_lt hs) (Nat.le_trans hv (Nat.sub_le ..)))⟩
  else ⟨(value.checkCount count, min (count + 1) maxArguments), by
    simpa using Nat.le_trans hv (Nat.sub_le ..)⟩
termination_by 4 * s.pending.length + 1
decreasing_by
  · omega
  · simp only [State.pending_checkCount] at hs
    omega

end

/-! ## The grammar without its proofs -/

/-- An expression whose operators bind at least as tightly as `level`. -/
def expression (inputs : List String) (level : Precedence) (s : State) : State :=
  (expressionWithin inputs level s).val

/-- The rest of an operand that was opened by `token`. -/
def operand (inputs : List String) (opening : Opening) (token : Token) (canAssign : Bool)
    (s : State) : State :=
  (operandWithin inputs opening token canAssign s).val

/-- Operators that bind at least as tightly as `level`, with their right
operands. -/
def operators (inputs : List String) (level : Precedence) (s : State) : State :=
  (operatorsWithin inputs level s).val

/-- Arguments up to the closing parenthesis, and how many they are. -/
def arguments (inputs : List String) (s : State) : State × Nat :=
  (argumentsWithin inputs s).val

/-- One argument after `count` others, and those that follow it. -/
def argument (inputs : List String) (count : Nat) (s : State) : State × Nat :=
  (argumentWithin inputs count s).val

theorem expression_pending_le (inputs : List String) (level : Precedence) (s : State) :
    (expression inputs level s).pending.length ≤ s.pending.length - 1 :=
  (expressionWithin inputs level s).property

theorem operand_pending_le (inputs : List String) (opening : Opening) (token : Token)
    (canAssign : Bool) (s : State) :
    (operand inputs opening token canAssign s).pending.length ≤ s.pending.length :=
  (operandWithin inputs opening token canAssign s).property

/-- An expression is an operand and the operators after it. -/
theorem expression_eq (inputs : List String) (level : Precedence) (s : State) :
    expression inputs level s =
      match s.ahead.opening with
      | none => s.advance.report s.current .expectedExpression
      | some opening =>
        (operators inputs level
          (operand inputs opening s.current (level ≤ .assignment) s.advance)).refuseTarget
            (level ≤ .assignment) := by
  unfold expression
  rw [expressionWithin]
  split
  · rename_i h
    simp only [h]
  · rename_i h
    simp only [h]
    rfl

theorem operand_grouping (inputs : List String) (token : Token) (canAssign : Bool) (s : State) :
    operand inputs .grouping token canAssign s =
      (expression inputs .assignment s).expect .parenAfterExpression := by
  unfold operand
  rw [operandWithin.eq_def]
  rfl

theorem operand_unary (inputs : List String) (op : UnaryOp) (token : Token) (canAssign : Bool)
    (s : State) :
    operand inputs (.unary op) token canAssign s =
      (expression inputs .unary s).emit (.unary op) := by
  unfold operand
  rw [operandWithin.eq_def]
  rfl

theorem operand_number (inputs : List String) (token : Token) (canAssign : Bool) (s : State) :
    operand inputs .number token canAssign s = s.number token := by
  unfold operand
  rw [operandWithin.eq_def]

/-- A name is a target, a function or a value, in this order. -/
theorem operand_variable (inputs : List String) (token : Token) (canAssign : Bool) (s : State) :
    operand inputs .variable token canAssign s =
      if canAssign ∧ s.ahead = .equal then
        (expression inputs .assignment (s.advance.checkTarget inputs token)).bind inputs
          token.lexeme
      else
        match Builtin.ofName? token.lexeme with
        | some f =>
          if s.ahead = .leftParen then
            match arguments inputs (s.emit (.get token.lexeme)).advance with
            | (args, argc) => (args.checkArity token f argc).emit (.call argc)
          else (s.emit (.get token.lexeme)).report token (.functionNotCalled token.lexeme)
        | none =>
          if s.ahead = .leftParen then
            match arguments inputs (((s.checkDefined inputs token).emit
                (.get token.lexeme)).advance.report token .notCallable) with
            | (args, argc) => args.emit (.call argc)
          else (s.checkDefined inputs token).emit (.get token.lexeme) := by
  unfold operand
  rw [operandWithin.eq_def]
  dsimp only
  split
  · rfl
  · cases Builtin.ofName? token.lexeme <;> dsimp only <;> split <;> rfl

/-- Operators are taken one at a time, from the left. -/
theorem operators_eq (inputs : List String) (level : Precedence) (s : State) :
    operators inputs level s =
      match s.ahead.operator with
      | none => s
      | some op =>
        if level ≤ op.precedence then
          operators inputs level ((expression inputs op.precedence.next s.advance).emitAll op.code)
        else s := by
  unfold operators
  rw [operatorsWithin]
  split
  · rename_i h
    simp only [h]
  · rename_i h
    simp only [h]
    split <;> rfl

theorem arguments_eq (inputs : List String) (s : State) :
    arguments inputs s =
      if s.ahead = .rightParen then (s.expect .parenAfterArguments, 0)
      else ((argument inputs 0 s).1.expect .parenAfterArguments, (argument inputs 0 s).2) := by
  unfold arguments
  rw [argumentsWithin]
  split <;> rfl

theorem argument_eq (inputs : List String) (count : Nat) (s : State) :
    argument inputs count s =
      if ((expression inputs .assignment s).checkCount count).ahead = .comma then
        argument inputs (count + 1) ((expression inputs .assignment s).checkCount count).advance
      else
        ((expression inputs .assignment s).checkCount count, min (count + 1) maxArguments) := by
  unfold argument
  rw [argumentWithin]
  dsimp only
  split
  · exact (if_pos (by assumption)).symm
  · exact (if_neg (by assumption)).symm

end Pixelwise.Compiler
