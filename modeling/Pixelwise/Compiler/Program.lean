/-
Programs — statements, recovery from problems of form, and compilation.

A statement is an expression and a semicolon; its value is dropped.  After
a problem of form the rest of the statement is skipped and the next one is
read as if nothing had happened, so one compilation reports the problems of
many statements.
-/
import Pixelwise.Compiler.Expression
import Pixelwise.Token.Scan

namespace Pixelwise.Compiler

namespace State

/-- The state in which nothing is taken yet, given the names assigned
before. -/
def start (assigned : List String) (tokens : List Token) (final : Token) : State :=
  settle
    { previous := final, pending := [], final, panicking := false, assigned,
      diagnostics := #[], emitted := #[] }
    tokens

/-- Move on until a semicolon was taken or nothing is left. -/
def skipStatement (s : State) : State :=
  if _ : s.pending = [] then s
  else if s.previous.kind = .semicolon then s
  else s.advance.skipStatement
termination_by s.pending.length
decreasing_by
  have := s.advance_pending_le
  have := List.length_pos_iff.mpr (by assumption)
  omega

/-- Stop panicking and move on to the next statement. -/
def recover (s : State) : State :=
  { s with panicking := false }.skipStatement

/-- Recover if that is called for. -/
def recoverIfPanicking (s : State) : State :=
  if s.panicking then s.recover else s

theorem skipStatement_pending_le (s : State) :
    s.skipStatement.pending.length ≤ s.pending.length := by
  fun_induction skipStatement s with
  | case1 => exact Nat.le_refl _
  | case2 => exact Nat.le_refl _
  | case3 s h _ ih => exact Nat.le_trans ih (Nat.le_trans s.advance_pending_le (Nat.sub_le ..))

theorem recoverIfPanicking_pending_le (s : State) :
    s.recoverIfPanicking.pending.length ≤ s.pending.length := by
  unfold recoverIfPanicking
  split
  · exact skipStatement_pending_le { s with panicking := false }
  · exact Nat.le_refl _

end State

/-- An expression and its semicolon. -/
def statement (inputs : List String) (s : State) : State :=
  ((expression inputs .assignment s).expect .semicolonAfterExpression).emit .pop

theorem statement_pending_le (inputs : List String) (s : State) :
    (statement inputs s).pending.length ≤ s.pending.length - 1 :=
  Nat.le_trans (State.expect_pending_le _ _) (expression_pending_le inputs .assignment s)

/-- All statements up to the end of the source. -/
def statements (inputs : List String) (s : State) : State :=
  if _ : s.pending = [] then s
  else statements inputs (statement inputs s).recoverIfPanicking
termination_by s.pending.length
decreasing_by
  have := (statement inputs s).recoverIfPanicking_pending_le
  have := statement_pending_le inputs s
  have := List.length_pos_iff.mpr (by assumption)
  omega

/-- The state after a whole source, given the names assigned before it. -/
def finish (assigned inputs : List String) (source : String) : State :=
  statements inputs (State.start assigned (Token.scan source) (Token.endOf source))

/-- What a finished compilation comes to: its code, or all that is wrong. -/
def State.result (s : State) : Except (List Diagnostic) Chunk :=
  if s.diagnostics.isEmpty then .ok (Chunk.ofEmitted s.emitted.toList)
  else .error s.diagnostics.toList

end Pixelwise.Compiler

namespace Pixelwise

/-- Compile a source that follows others which assigned some names. -/
def compileAfter (assigned inputs : List String) (source : String) :
    Except (List Diagnostic) Chunk :=
  (Compiler.finish assigned inputs source).result

/-- Compile a source against the names of its inputs: a chunk when nothing
is wrong with it, and otherwise every problem found, in order. -/
def compile (inputs : List String) (source : String) : Except (List Diagnostic) Chunk :=
  compileAfter [] inputs source

end Pixelwise
