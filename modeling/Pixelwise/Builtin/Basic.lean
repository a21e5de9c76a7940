/-
The library of functions — their names and how many arguments each takes.

The library is fixed.  `Builtin.all` lists it in the order of the names,
and a name is looked up by `Builtin.ofName?`.  Because of that order it can be
looked up by halving the list as well (`lookup_eq_ofName?`).
-/
import Pixelwise.Search

namespace Pixelwise

/-- The functions that programs can call. -/
inductive Builtin where
  | abs
  | acos
  | asin
  | atan
  | atan2
  | ceil
  | cos
  | floor
  | choose
  | lerp
  | max
  | min
  | rand
  | round
  | sin
  | sqrt
  | tan
deriving DecidableEq, Repr

namespace Builtin

/-- The name by which programs call a function. -/
def name : Builtin → String
  | abs => "abs"
  | acos => "acos"
  | asin => "asin"
  | atan => "atan"
  | atan2 => "atan2"
  | ceil => "ceil"
  | cos => "cos"
  | floor => "floor"
  | choose => "if"
  | lerp => "lerp"
  | max => "max"
  | min => "min"
  | rand => "rand"
  | round => "round"
  | sin => "sin"
  | sqrt => "sqrt"
  | tan => "tan"

/-- How many arguments a function takes. -/
def arity : Builtin → Nat
  | rand => 0
  | atan2 | max | min => 2
  | choose | lerp => 3
  | _ => 1

/-- The whole library, by name. -/
def all : List Builtin :=
  [abs, acos, asin, atan, atan2, ceil, cos, floor, choose, lerp, max, min, rand, round,
    sin, sqrt, tan]

/-- The function of a given name, if the library has one. -/
def ofName? (name : String) : Option Builtin :=
  all.find? (·.name = name)

/-- The function of a given name, found by halving the list. -/
def lookup (name : String) : Option Builtin :=
  Search.find? Builtin.name all.toArray name

theorem mem_all (f : Builtin) : f ∈ all := by
  cases f <;> simp [all]

theorem ofName?_name (f : Builtin) : ofName? f.name = some f := by
  cases f <;> decide

theorem name_of_ofName? {n : String} {f : Builtin} (h : ofName? n = some f) : f.name = n := by
  simpa using List.find?_some h

theorem ofName?_eq_some_iff {n : String} {f : Builtin} : ofName? n = some f ↔ f.name = n :=
  ⟨name_of_ofName?, fun h => h ▸ ofName?_name f⟩

theorem ordered_all : Search.Ordered Builtin.name all.toArray := by
  unfold Search.Ordered all
  decide

theorem lookup_eq_ofName? (n : String) : lookup n = ofName? n := by
  ext f
  rw [lookup, Search.find?_eq_some_iff ordered_all, ofName?_eq_some_iff]
  simp [mem_all]

end Builtin

end Pixelwise
