/-
Bodies — the functions of the library, as they read their arguments.

A function is handed its arguments in a list and reads them by position, the
first being argument 0.  It does not ask how many there are.  `body` says what
each function reads, in which order, and what it makes of that; `invoke` runs
a body over a list, notes the positions that are read, and breaks off at a
position where there is no argument.
-/
import Pixelwise.Builtin.Apply

namespace Pixelwise.Builtin

open Arithmetic

section

variable {m : Type → Type} [Monad m] (argument : Nat → m Float)

/-- What is made of one argument. -/
def ofOne (op : Float → Float) : m Float := do
  return op (← argument 0)

/-- What is made of two arguments. -/
def ofTwo (op : Float → Float → Float) : m Float := do
  let x ← argument 0
  let y ← argument 1
  return op x y

/-- What a function does, given how an argument is read and how a random
number is drawn. -/
def body (draw : m Float) : Builtin → m Float
  | abs => ofOne argument Float.abs
  | acos => ofOne argument Float.acos
  | asin => ofOne argument Float.asin
  | atan => ofOne argument Float.atan
  | atan2 => ofTwo argument Float.atan2
  | ceil => ofOne argument Float.ceil
  | cos => ofOne argument Float.cos
  | floor => ofOne argument Float.floor
  | choose => do
    if isTrue (← argument 0) then argument 1 else argument 2
  | lerp => do
    let weight ← argument 0
    let x ← argument 1
    let y ← argument 2
    return x * weight + y * (1 - weight)
  | max => ofTwo argument greatest
  | min => ofTwo argument least
  | rand => draw
  | round => ofOne argument Float.round
  | sin => ofOne argument Float.sin
  | sqrt => ofOne argument Float.sqrt
  | tan => ofOne argument Float.tan

end

/-- What a function has used so far: the positions that it has read, in
order, and the generator. -/
structure Usage where
  positions : List Nat
  generator : Generator
deriving DecidableEq, Repr

/-- Read the argument at a position.  Where there is none nothing goes on, and
the position is all that is left. -/
def readAt (args : List Float) (position : Nat) : StateT Usage (Except Nat) Float := fun usage =>
  match args[position]? with
  | some x => .ok (x, { usage with positions := usage.positions ++ [position] })
  | none => .error position

/-- Draw the next number. -/
def drawNext : StateT Usage (Except Nat) Float := fun usage =>
  .ok (usage.generator.next.1, { usage with generator := usage.generator.next.2 })

/-- Run the body of a function over a list of arguments. -/
def invoke (f : Builtin) (args : List Float) (g : Generator) : Except Nat (Float × Usage) :=
  (f.body (readAt args) drawNext).run ⟨[], g⟩

end Pixelwise.Builtin
