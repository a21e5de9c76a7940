/-
The state of a compilation — where it stands in the tokens, what it has
reported and what it has emitted.

The compiler looks one token ahead.  Moving on reports every unexpected
character that it meets and steps over it, so the token ahead is always one
of the language.  After a problem of form nothing more is reported until
the compiler has recovered.

Main statements: `advance_pending_le`, that moving on takes a token away
while one is left, and the `pending_…` lemmas, that reporting, emitting and
assigning take none.
-/
import Pixelwise.Precedence
import Pixelwise.Diagnostic
import Pixelwise.Chunk

namespace Pixelwise.Compiler

/-- Where a compilation stands. -/
structure State where
  /-- The token taken last. -/
  previous : Token
  /-- The tokens not yet taken, the one ahead first. -/
  pending : List Token
  /-- The token that stands at the end of the source. -/
  final : Token
  /-- Set by a problem of form; nothing is reported while it is set. -/
  panicking : Bool
  /-- The names assigned so far. -/
  assigned : List String
  diagnostics : Array Diagnostic
  /-- The code so far, each instruction with its line. -/
  emitted : Array (Instruction × Nat)

namespace State

/-- The token ahead. -/
def current (s : State) : Token :=
  s.pending.headD s.final

/-- The kind of the token ahead. -/
def ahead (s : State) : Token.Kind :=
  match s.pending with
  | [] => .endOfInput
  | t :: _ => t.kind

/-! ## Reporting and emitting -/

/-- Report a problem at a token, unless the compiler is panicking. -/
def report (s : State) (at' : Token) (problem : Problem) : State :=
  if s.panicking then s
  else { s with
    panicking := problem.isSyntax
    diagnostics := s.diagnostics.push ⟨problem, at'.line, at'.span⟩ }

/-- Emit an instruction, on the line of the token taken last. -/
def emit (s : State) (i : Instruction) : State :=
  { s with emitted := s.emitted.push (i, s.previous.line) }

/-- Emit instructions in order. -/
def emitAll (s : State) (code : List Instruction) : State :=
  code.foldl emit s

/-- Count a name among those assigned. -/
def assign (s : State) (name : String) : State :=
  { s with assigned := name :: s.assigned }

/-! ## Moving through the tokens -/

/-- Report and drop the unexpected characters at the front of `tokens`, and
stand before the first token of the language. -/
def settle (s : State) : List Token → State
  | [] => { s with pending := [] }
  | t :: rest =>
    match t.kind with
    | .unexpected c => (s.report t (.unexpectedCharacter c)).settle rest
    | _ => { s with pending := t :: rest }

/-- Take the token ahead; at the end of the source its last token is taken
again and again. -/
def advance (s : State) : State :=
  { s with previous := s.current }.settle s.pending.tail

/-- Take the token that is asked for, or report that it is missing. -/
def expect (s : State) (what : Expectation) : State :=
  if s.ahead = what.kind then s.advance else s.report s.current (.missing what)

/-! ## What each step leaves of the tokens -/

@[simp] theorem pending_report (s : State) (t : Token) (p : Problem) :
    (s.report t p).pending = s.pending := by
  unfold report
  split <;> rfl

@[simp] theorem pending_emit (s : State) (i : Instruction) :
    (s.emit i).pending = s.pending := rfl

@[simp] theorem pending_emitAll (s : State) (code : List Instruction) :
    (s.emitAll code).pending = s.pending := by
  unfold emitAll
  induction code generalizing s with
  | nil => rfl
  | cons i rest ih => simpa using ih (s.emit i)

@[simp] theorem pending_assign (s : State) (name : String) :
    (s.assign name).pending = s.pending := rfl

theorem settle_pending_le (s : State) (tokens : List Token) :
    (s.settle tokens).pending.length ≤ tokens.length := by
  induction tokens generalizing s with
  | nil => simp [settle]
  | cons t rest ih =>
    unfold settle
    split
    · exact Nat.le_succ_of_le (ih _)
    · simp

/-- Moving on takes a token away while one is left. -/
theorem advance_pending_le (s : State) :
    s.advance.pending.length ≤ s.pending.length - 1 := by
  have h := settle_pending_le { s with previous := s.current } s.pending.tail
  rwa [List.length_tail] at h

theorem expect_pending_le (s : State) (what : Expectation) :
    (s.expect what).pending.length ≤ s.pending.length := by
  unfold expect
  split
  · exact Nat.le_trans s.advance_pending_le (Nat.sub_le ..)
  · simp

/-- A token is left when the one ahead is not the end. -/
theorem pending_pos {s : State} (h : s.ahead ≠ .endOfInput) : 0 < s.pending.length := by
  unfold ahead at h
  split at h <;> simp_all

end State

end Pixelwise.Compiler
