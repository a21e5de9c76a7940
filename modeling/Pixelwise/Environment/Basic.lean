/-
The environment — the inputs that a host gives to programs.

An input is a constant, a sequence with one value for each index, or
computed by the host whenever it is read.  What the host keeps between
reads is its state, of a type `σ` of its own; a read may change it.

Names must differ from one another and from those of the library.  Main
statement: `get?_register`, that a registration adds its own name and
changes no other.
-/
import Pixelwise.Builtin.Basic
import Pixelwise.NameTable
import Pixelwise.Decimal.Positional

namespace Pixelwise

/-- Something that programs can read but not assign. -/
inductive Input (σ : Type) where
  | constant (value : Float)
  | sequence (values : Array Float)
  | computed (read : σ → Float × σ)

namespace Input

variable {σ : Type}

/-- The value at an index and the state of the host after the read; a
sequence that is too short has none. -/
def valueAt? (input : Input σ) (index : Nat) (host : σ) : Option (Float × σ) :=
  match input with
  | constant value => some (value, host)
  | sequence values => values[index]?.map fun value => (value, host)
  | computed read => some (read host)

/-- How many values an input has, when it has one for each index. -/
def length : Input σ → Nat
  | sequence values => values.size
  | _ => 0

/-- A short description of an input. -/
def describe : Input σ → String
  | constant value => "Constant(" ++ Decimal.write value ++ ")"
  | sequence values => "Sequence(len=" ++ toString values.size ++ ")"
  | computed _ => "Computed"

end Input

/-- Why an input was refused. -/
inductive RegistrationError where
  | collides (name : String)
  | twice (name : String)
deriving DecidableEq, Repr

/-- The refusal in words. -/
def RegistrationError.message : RegistrationError → String
  | collides name => "input '" ++ name ++ "' collides with a library function"
  | twice name => "input '" ++ name ++ "' registered twice"

/-- A read past the end of a sequence. -/
structure OutOfBounds where
  name : String
  index : Nat
  length : Nat
deriving DecidableEq, Repr

/-- The failed read in words. -/
def OutOfBounds.message (e : OutOfBounds) : String :=
  "Index " ++ toString e.index ++ " out of bounds for input '" ++ e.name ++ "' (length: " ++
    toString e.length ++ ")"

/-- The inputs by name. -/
structure Environment (σ : Type) where
  inputs : NameTable (Input σ)

namespace Environment

variable {σ : Type}

/-- No inputs at all. -/
def empty : Environment σ := ⟨.empty⟩

/-- The input of a name. -/
def get? (env : Environment σ) (name : String) : Option (Input σ) :=
  env.inputs.get? name

/-- The names of the inputs, in order. -/
def names (env : Environment σ) : List String :=
  env.inputs.names

/-- Add an input under a name that is still free. -/
def register (env : Environment σ) (name : String) (input : Input σ) :
    Except RegistrationError (Environment σ) :=
  if (Builtin.ofName? name).isSome then .error (.collides name)
  else if (env.get? name).isSome then .error (.twice name)
  else .ok ⟨env.inputs.insert name input⟩

/-- The value of a name at an index and the state of the host after the
read; a name that is no input has no value and is no error. -/
def resolve (env : Environment σ) (name : String) (index : Nat) (host : σ) :
    Except OutOfBounds (Option Float × σ) :=
  match env.get? name with
  | none => .ok (none, host)
  | some input =>
    match input.valueAt? index host with
    | some (value, host) => .ok (some value, host)
    | none => .error ⟨name, index, input.length⟩

/-- The environment of several inputs, each put into its place, or the first
refusal. -/
def ofList (entries : List (String × Input σ)) : Except RegistrationError (Environment σ) :=
  entries.foldlM (fun env entry => env.register entry.1 entry.2) empty

/-- A registration adds its own name and changes no other. -/
theorem get?_register {env env' : Environment σ} {name : String} {input : Input σ}
    (h : env.register name input = .ok env') (other : String) :
    env'.get? other = if name = other then some input else env.get? other := by
  unfold register at h
  split at h
  · contradiction
  · split at h
    · contradiction
    · cases h
      exact NameTable.get?_insert env.inputs name other input

end Environment

end Pixelwise
