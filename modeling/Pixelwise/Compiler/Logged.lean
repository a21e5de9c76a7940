/-
The compiler with a log — what each of its functions does to the state, and the
events on the way there.

The log is written and never looked at, so the states are those of the compiler,
and the log turns out to be its journal (`finishLogged_eq`).  Unlike the journal,
which follows the states that the compiler gives it, it is written as the state
changes.

The recursion is on a number that is more than the tokens that are left can use
up.
-/
import Pixelwise.Compiler.Journal

namespace Pixelwise.Compiler

/-- A state, and the events on the way to it. -/
structure Logged where
  state : State
  log : List Event

namespace Logged

/-- Go on from the state. -/
def andThen (m : Logged) (f : State → Logged) : Logged :=
  ⟨(f m.state).state, m.log ++ (f m.state).log⟩

/-- Change the state without an event. -/
def quietly (m : Logged) (f : State → State) : Logged :=
  ⟨f m.state, m.log⟩

/-- Come to a place first. -/
def visiting (p : Site) (m : Logged) : Logged :=
  ⟨m.state, .visit p :: m.log⟩

end Logged

/-! ## Moving through the tokens -/

namespace State

/-- No event at all. -/
def silent (s : State) : Logged :=
  ⟨s, []⟩

/-- Drop the unexpected characters at the front of `tokens`, each of them taken
as it is pulled, and stand before the first token of the language. -/
def settleLogged (s : State) : List Token → Logged
  | [] => ⟨{ s with pending := [] }, [.pull s.final]⟩
  | t :: rest =>
    match t.kind with
    | .unexpected c =>
      let m := (s.report t (.unexpectedCharacter c)).settleLogged rest
      ⟨m.state, .pull t :: .visit .stray :: .take t :: m.log⟩
    | _ => ⟨{ s with pending := t :: rest }, [.pull t]⟩

def advanceLogged (s : State) : Logged :=
  let m := { s with previous := s.current }.settleLogged s.pending.tail
  ⟨m.state, .take s.current :: m.log⟩

def expectLogged (what : Expectation) (s : State) : Logged :=
  if s.ahead = what.kind then s.advanceLogged else (s.report s.current (.missing what)).silent

def refuseLogged (canAssign : Bool) (s : State) : Logged :=
  if canAssign ∧ s.ahead = .equal then
    s.advanceLogged.quietly (·.report s.current .invalidTarget)
  else s.silent

end State

/-! ## The grammar -/

mutual

def expressionLogged (inputs : List String) : Nat → Precedence → State → Logged
  | 0, _, s => s.silent
  | fuel + 1, level, s =>
    .visiting .expression <|
      match s.ahead.opening with
      | none => s.advanceLogged.quietly (·.report s.current .expectedExpression)
      | some opening =>
        (s.advanceLogged.andThen (operandLogged inputs fuel opening s.current
          (level ≤ .assignment))).andThen fun first =>
            (operatorsLogged inputs fuel level first).andThen (·.refuseLogged (level ≤ .assignment))

def operandLogged (inputs : List String) : Nat → Opening → Token → Bool → State → Logged
  | 0, _, _, _, s => s.silent
  | fuel + 1, .grouping, _, _, s =>
    (expressionLogged inputs fuel .assignment s).andThen (·.expectLogged .parenAfterExpression)
  | fuel + 1, .unary op, _, _, s =>
    (expressionLogged inputs fuel .unary s).quietly (·.emit (.unary op))
  | _ + 1, .number, token, _, s => (s.number token).silent
  | fuel + 1, .variable, token, canAssign, s =>
    if canAssign ∧ s.ahead = .equal then
      (s.advanceLogged.andThen fun next =>
        expressionLogged inputs fuel .assignment (next.checkTarget inputs token)).quietly
          (·.bind inputs token.lexeme)
    else
      match Builtin.ofName? token.lexeme with
      | some f =>
        if s.ahead = .leftParen then
          (s.emit (.get token.lexeme)).advanceLogged.andThen fun next =>
            let (m, argc) := argumentsLogged inputs fuel next
            m.quietly fun args => (args.checkArity token f argc).emit (.call argc)
        else ((s.emit (.get token.lexeme)).report token (.functionNotCalled token.lexeme)).silent
      | none =>
        if s.ahead = .leftParen then
          ((s.checkDefined inputs token).emit (.get token.lexeme)).advanceLogged.andThen fun next =>
            let (m, argc) := argumentsLogged inputs fuel (next.report token .notCallable)
            m.quietly (·.emit (.call argc))
        else ((s.checkDefined inputs token).emit (.get token.lexeme)).silent

def operatorsLogged (inputs : List String) : Nat → Precedence → State → Logged
  | 0, _, s => s.silent
  | fuel + 1, level, s =>
    match s.ahead.operator with
    | none => s.silent
    | some op =>
      if level ≤ op.precedence then
        .visiting .operator <|
          (s.advanceLogged.andThen (expressionLogged inputs fuel op.precedence.next)).andThen
            fun right => operatorsLogged inputs fuel level (right.emitAll op.code)
      else s.silent

/-- The arguments of a call, and how many they are. -/
def argumentsLogged (inputs : List String) : Nat → State → Logged × Nat
  | 0, s => (s.silent, 0)
  | fuel + 1, s =>
    if s.ahead = .rightParen then (s.expectLogged .parenAfterArguments, 0)
    else
      let (m, argc) := argumentLogged inputs fuel 0 s
      (m.andThen (·.expectLogged .parenAfterArguments), argc)

def argumentLogged (inputs : List String) : Nat → Nat → State → Logged × Nat
  | 0, count, s => (s.silent, count)
  | fuel + 1, count, s =>
    let value := (Logged.visiting .argument (expressionLogged inputs fuel .assignment s)).quietly
      (·.checkCount count)
    if value.state.ahead = .comma then
      let next := value.andThen (·.advanceLogged)
      let (m, argc) := argumentLogged inputs fuel (count + 1) next.state
      (⟨m.state, next.log ++ m.log⟩, argc)
    else (value, min (count + 1) maxArguments)

end

/-! ## Programs -/

namespace State

def skipLogged : Nat → State → Logged
  | 0, s => s.silent
  | fuel + 1, s =>
    if s.pending = [] then s.silent
    else if s.previous.kind = .semicolon then .visiting .skipping s.silent
    else .visiting .skipping (s.advanceLogged.andThen (skipLogged fuel))

def recoverLogged (fuel : Nat) (s : State) : Logged :=
  if s.panicking then skipLogged fuel { s with panicking := false } else s.silent

end State

def statementLogged (inputs : List String) (fuel : Nat) (s : State) : Logged :=
  ((expressionLogged inputs fuel .assignment s).andThen
    (·.expectLogged .semicolonAfterExpression)).quietly (·.emit .pop)

/-- At the end of the source its last token is taken once more. -/
def statementsLogged (inputs : List String) : Nat → State → Logged
  | 0, s => s.silent
  | fuel + 1, s =>
    if s.pending = [] then ⟨s, s.advanceLogged.log⟩
    else
      ((Logged.visiting .statement (statementLogged inputs (4 * s.pending.length + 1) s)).andThen
        (·.recoverLogged (s.pending.length + 1))).andThen (statementsLogged inputs fuel)

/-- Compile a whole source, given the names assigned before it, and log what is
done. -/
def finishLogged (assigned inputs : List String) (source : String) : Logged :=
  let tokens := Token.scan source
  let final := Token.endOf source
  let blank : State :=
    { previous := final, pending := [], final, panicking := false, assigned,
      diagnostics := #[], emitted := #[] }
  (blank.settleLogged tokens).andThen (statementsLogged inputs (tokens.length + 1))

end Pixelwise.Compiler
