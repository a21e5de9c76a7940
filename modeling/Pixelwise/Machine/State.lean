/-
The state of the machine — its stack, its bindings and what it shares with
the world: the generator and the host.

Functions are on the stack only between the instruction that gets them and
the one that calls them; all other values are numbers.
-/
import Pixelwise.Builtin.Apply
import Pixelwise.Environment.Basic

namespace Pixelwise

/-- What the stack holds. -/
inductive Value where
  | number (value : Float)
  | function (f : Builtin)
deriving DecidableEq, Repr

/-- What an evaluation leaves behind. -/
structure Bindings where
  /-- The names that were assigned, with their last values. -/
  locals : NameTable Float
  /-- The value of the last statement. -/
  last : Option Float
deriving DecidableEq, Repr

namespace Bindings

/-- Nothing assigned and no statement run. -/
def empty : Bindings := ⟨.empty, none⟩

/-- The value of an assigned name. -/
def get? (b : Bindings) (name : String) : Option Float :=
  b.locals.get? name

/-- Assign a value to a name. -/
def set (b : Bindings) (name : String) (value : Float) : Bindings :=
  { b with locals := b.locals.insert name value }

/-- Take note of the value of a statement; a function is none. -/
def note (b : Bindings) : Value → Bindings
  | .number value => { b with last := some value }
  | .function _ => b

end Bindings

/-- What can go wrong while code is run. -/
inductive Fault where
  | stackUnderflow
  | notCallable
  | unexpectedFunction (f : Builtin)
  | arityMismatch (f : Builtin) (found : Nat)
  | undefinedName (name : String)
  | indexOutOfBounds (read : OutOfBounds)
  | divisionByZero
deriving DecidableEq, Repr

/-- The fault in words. -/
def Fault.message : Fault → String
  | stackUnderflow => "Stack underflow"
  | notCallable => "Can only call functions"
  | unexpectedFunction f => "Function '" ++ f.name ++ "' used as a value"
  | arityMismatch f found =>
    "Function '" ++ f.name ++ "' expects " ++ toString f.arity ++ " argument(s) but got " ++
      toString found
  | undefinedName name => "Undefined name '" ++ name ++ "'"
  | indexOutOfBounds read => read.message
  | divisionByZero => "Division by zero"

/-- A fault with the line of the instruction that met it. -/
structure Failure where
  fault : Fault
  line : Nat
deriving DecidableEq, Repr

/-- The fault in words, after its line. -/
def Failure.message (f : Failure) : String :=
  "[line " ++ toString f.line ++ "] " ++ f.fault.message

/-- What a division by zero comes to. -/
inductive DivisionPolicy where
  | zero
  | fail
deriving DecidableEq, Repr

namespace Machine

/-- Where an evaluation stands. -/
structure State (σ : Type) where
  /-- The operands, the topmost first. -/
  stack : List Value
  bindings : Bindings
  generator : Generator
  host : σ

end Machine

end Pixelwise
