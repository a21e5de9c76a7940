/-
What the functions of the library compute.

`rand` draws from the generator; all others are functions of their
arguments alone.  A function is undefined on any number of arguments but
its own (`isSome_apply`).
-/
import Pixelwise.Builtin.Basic
import Pixelwise.Random.Generator
import Pixelwise.Arithmetic

namespace Pixelwise.Builtin

open Arithmetic

/-- The result of a function, and the generator after it. -/
def apply (f : Builtin) (args : List Float) (g : Generator) : Option (Float × Generator) :=
  match f, args with
  | rand, [] => some g.next
  | abs, [x] => some (x.abs, g)
  | acos, [x] => some (x.acos, g)
  | asin, [x] => some (x.asin, g)
  | atan, [x] => some (x.atan, g)
  | ceil, [x] => some (x.ceil, g)
  | cos, [x] => some (x.cos, g)
  | floor, [x] => some (x.floor, g)
  | round, [x] => some (x.round, g)
  | sin, [x] => some (x.sin, g)
  | sqrt, [x] => some (x.sqrt, g)
  | tan, [x] => some (x.tan, g)
  | atan2, [y, x] => some (y.atan2 x, g)
  | max, [x, y] => some (greatest x y, g)
  | min, [x, y] => some (least x y, g)
  | choose, [c, x, y] => some (if isTrue c then x else y, g)
  | lerp, [weight, x, y] => some (x * weight + y * (1 - weight), g)
  | _, _ => none

theorem isSome_apply (f : Builtin) (args : List Float) (g : Generator) :
    (f.apply args g).isSome ↔ args.length = f.arity := by
  rcases args with _ | ⟨x, _ | ⟨y, _ | ⟨z, _ | ⟨w, rest⟩⟩⟩⟩ <;> cases f <;> simp [apply, arity]

end Pixelwise.Builtin
