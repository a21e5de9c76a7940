/-
Building an environment.

Inputs are registered one after another, and a registration that is refused
leaves everything as it was.  The environment is built from them at the end:
they are put in the order of their names, and from then on a name is found by
halving the table.
-/
import Pixelwise.Environment.Basic

namespace Pixelwise.Environment

variable {σ : Type}

/-- The input of a name, found by halving the table. -/
def lookup (env : Environment σ) (name : String) : Option (Input σ) :=
  (Search.find? Prod.fst env.inputs.entries.toArray name).map Prod.snd

/-- Inputs in the order in which they were registered. -/
structure Builder (σ : Type) where
  entries : List (String × Input σ)

namespace Builder

/-- Nothing is registered yet. -/
def empty : Builder σ := ⟨[]⟩

/-- Register an input under a name that is still free. -/
def register (b : Builder σ) (name : String) (input : Input σ) :
    Except RegistrationError (Builder σ) :=
  if (Builtin.lookup name).isSome then .error (.collides name)
  else if b.entries.any (fun e => e.1 = name) then .error (.twice name)
  else .ok ⟨b.entries ++ [(name, input)]⟩

/-- Register several inputs and go on after refusals: the refusals, in the
order of the inputs, and what was registered. -/
def registerAll (b : Builder σ) :
    List (String × Input σ) → List (Option RegistrationError) × Builder σ
  | [] => ([], b)
  | (name, input) :: rest =>
    match b.register name input with
    | .ok b' => (none :: (b'.registerAll rest).1, (b'.registerAll rest).2)
    | .error e => (some e :: (b.registerAll rest).1, (b.registerAll rest).2)

/-- The environment of what was registered. -/
def build (b : Builder σ) : Environment σ :=
  ⟨⟨b.entries.mergeSort fun a b => a.1 ≤ b.1⟩⟩

/-- The environment built of several inputs, or the first refusal. -/
def ofList (entries : List (String × Input σ)) : Except RegistrationError (Environment σ) :=
  (entries.foldlM (fun (b : Builder σ) e => b.register e.1 e.2) empty).map build

end Builder

end Pixelwise.Environment
