/-
Divisors — where code divides by zero.

Only the policy says what a division by zero comes to.  Whether a run of code
comes to one is a matter of the code: up to the first of them all policies do
the same.
-/
import Pixelwise.Machine.Execute

namespace Pixelwise.Machine

variable {σ : Type}

/-- The instruction has a divisor, and finds it on the stack to be zero. -/
def zeroDivisor (s : State σ) : Instruction → Bool
  | .binary op =>
    match s.stack with
    | .number b :: .number _ :: _ => op.hasDivisor && b == 0
    | _ => false
  | _ => false

/-- A run of code comes to a zero divisor. -/
def meetsZero (env : Environment σ) (index : Nat) (s : State σ) : List Instruction → Bool
  | [] => false
  | i :: rest =>
    zeroDivisor s i ||
      match execute env .zero index s i with
      | .ok t => meetsZero env index t rest
      | .error _ => false

end Pixelwise.Machine
