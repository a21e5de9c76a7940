/-
Supply — what a run takes from the host.

Only computed inputs ask anything of the host.  `reads` lists those that a
run reads, in order and each with its value, and `Environment.Supplies` says
what such reads do to the host.
-/
import Pixelwise.Machine.Processor

namespace Pixelwise

variable {σ : Type}

/-- `Supplies env reads s t`: read in order, these computed inputs have these
values and take the host from `s` to `t`. -/
inductive Environment.Supplies (env : Environment σ) : List (String × Float) → σ → σ → Prop
  | nil (s : σ) : env.Supplies [] s s
  | cons {name : String} {read : σ → Float × σ} {rest : List (String × Float)} {s t : σ} :
      env.get? name = some (.computed read) → env.Supplies rest (read s).2 t →
      env.Supplies ((name, (read s).1) :: rest) s t

theorem Environment.Supplies.append {env : Environment σ} {xs ys : List (String × Float)}
    {r s t : σ} (hx : env.Supplies xs r s) (hy : env.Supplies ys s t) :
    env.Supplies (xs ++ ys) r t := by
  induction hx with
  | nil => exact hy
  | cons hget _ ih => exact .cons hget (ih hy)

namespace Machine

variable (env : Environment σ) (division : DivisionPolicy) (index : Nat)

/-- The computed input that an instruction reads, if it reads one. -/
def asked (s : State σ) : Instruction → List (String × Float)
  | .get name =>
    match Builtin.ofName? name, env.get? name with
    | none, some (.computed read) => [(name, (read s.host).1)]
    | _, _ => []
  | _ => []

/-- The computed inputs that a run of code reads, in order, those of a run
that fails included. -/
def reads (s : State σ) : List Instruction → List (String × Float)
  | [] => []
  | i :: rest =>
    match execute env division index s i with
    | .ok t => asked env s i ++ reads t rest
    | .error _ => []

end Machine

end Pixelwise
