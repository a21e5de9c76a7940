/-
Reviews — what is wrong with the names of a program, found by one walk over
its trees.

The walk goes from the left and visits every token that is a name.  It
carries the names whose assignments are complete: a name can be read once it
is an input or the value assigned to it has been walked over.  An assignment
that is refused is complete all the same, so its name is not reported again.

No code is made, and nothing is said of the order in which the compiler
comes upon names.
-/
import Pixelwise.Syntax.Tree
import Pixelwise.Builtin.Basic
import Pixelwise.Diagnostic

namespace Pixelwise.Syntax

/-- Where a walk stands. -/
structure Review where
  /-- What is wrong so far, in the order in which it was found. -/
  found : List Diagnostic
  /-- The targets of the assignments that are complete. -/
  complete : List String

namespace Review

/-- Nothing has been walked over. -/
def start : Review := ⟨[], []⟩

/-- Note a problem at a token. -/
def note (r : Review) (token : Token) (problem : Problem) : Review :=
  { r with found := r.found ++ [⟨problem, token.line, token.span⟩] }

/-- A name begins to be assigned: names of the library cannot be, nor can
inputs. -/
def target (r : Review) (inputs : List String) (token : Token) : Review :=
  if (Builtin.ofName? token.lexeme).isSome then
    r.note token (.assignToFunction token.lexeme)
  else if token.lexeme ∈ inputs then r.note token (.assignToInput token.lexeme)
  else r

/-- The value that is assigned to a name has been walked over. -/
def assigned (r : Review) (name : String) : Review :=
  { r with complete := name :: r.complete }

/-- A name that is none of the library is read: it must be an input or the
target of an assignment that is complete. -/
def known (r : Review) (inputs : List String) (token : Token) : Review :=
  if token.lexeme ∈ inputs ∨ token.lexeme ∈ r.complete then r
  else r.note token (.undefinedName token.lexeme)

/-- A function was called with so many arguments. -/
def arity (r : Review) (f : Builtin) (token : Token) (found : Nat) : Review :=
  if found = f.arity then r else r.note token (.arityMismatch token.lexeme f.arity found)

end Review

mutual

/-- Walk over an expression. -/
def Expr.review (inputs : List String) : Expr → Review → Review
  | .number _, r => r
  | .name token, r =>
    if (Builtin.ofName? token.lexeme).isSome then
      r.note token (.functionNotCalled token.lexeme)
    else r.known inputs token
  | .group inner _, r => inner.review inputs r
  | .call callee args _, r =>
    match Builtin.ofName? callee.lexeme with
    | some f => (reviewAll inputs args r).arity f callee args.length
    | none => reviewAll inputs args ((r.known inputs callee).note callee .notCallable)
  | .unary _ operand, r => operand.review inputs r
  | .binary _ left right, r => right.review inputs (left.review inputs r)
  | .assign target value, r =>
    (value.review inputs (r.target inputs target)).assigned target.lexeme

/-- Walk over arguments, from the first to the last. -/
def reviewAll (inputs : List String) : List Expr → Review → Review
  | [], r => r
  | e :: rest, r => reviewAll inputs rest (e.review inputs r)

end

/-- All that is wrong with the names of a program, in the order of a walk
from the left. -/
def review (inputs : List String) (program : List Statement) : List Diagnostic :=
  (reviewAll inputs (program.map Statement.value) .start).found

end Pixelwise.Syntax
