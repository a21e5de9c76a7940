/-
Effects — what is declared of an instruction is what it does.

The compiler reckons with the effects that instructions declare; the machine
takes values off its stack one by one and never looks at the declaration.  So
the two are compared on every stack, also on those that no compiled code
makes: with too few values, or with functions where numbers should be.

Values are met from the top of the stack down.  Where there are too few of
them, what is met decides the fault: the first function, or else the end of
the stack (`shortage`).

Main statement: `execute_heeds`.
-/
import Pixelwise.Proofs.Executing

namespace Pixelwise.Machine

variable {σ : Type} {env : Environment σ} {division : DivisionPolicy} {index : Nat}

/-! ## The two descriptions -/

/-- The function that is met first, from the top of a stack down. -/
def firstFunction? : List Value → Option Builtin
  | [] => none
  | .number _ :: rest => firstFunction? rest
  | .function f :: _ => some f

/-- What stops whoever takes more values off a stack than there are. -/
def shortage (stack : List Value) : Fault :=
  match firstFunction? stack with
  | some f => .unexpectedFunction f
  | none => .stackUnderflow

/-- What comes of an instruction with this effect on a stack: it has exchanged
the topmost values for as many as the effect says, with all below them as it
was; it fails where there are too few; and where there are enough, it is not
for want of values that it fails. -/
structure Heeds (e : StackEffect) (stack : List Value) (result : Except Fault (State σ)) :
    Prop where
  exchanges : ∀ t, result = .ok t → ∃ taken put below, taken.length = e.pops ∧
    put.length = e.pushes ∧ stack = taken ++ below ∧ t.stack = put ++ below
  short : stack.length < e.pops → result = .error (shortage stack)
  enough : e.pops ≤ stack.length → result ≠ .error .stackUnderflow

/-! ## Taking values off -/

theorem shortage_numbers (xs : List Float) : shortage (xs.map Value.number) = .stackUnderflow := by
  induction xs with
  | nil => rfl
  | cons x xs ih => exact ih

/-- Whoever wants all of a stack, or more, and fails has met the first
function or the end. -/
theorem eq_shortage_of_popNumbers {n : Nat} {stack : List Value} {fault : Fault}
    (h : popNumbers n stack = .error fault) (hle : stack.length ≤ n) :
    fault = shortage stack := by
  induction n generalizing stack with
  | zero => cases h
  | succ n ih =>
      rcases cases_of_bind h with hfirst | ⟨p, hp, hbehind⟩
      · rcases popNumber_error hfirst with ⟨rfl, rfl⟩ | ⟨f, rest, rfl, rfl⟩ <;> rfl
      · rcases cases_of_bind hbehind with hrest | ⟨q, -, hdone⟩
        · obtain rfl := eq_of_popNumber hp
          have hbelow : fault = shortage p.2 := ih hrest (Nat.le_of_succ_le_succ hle)
          exact hbelow
        · cases hdone

/-- Whoever gets as many numbers off a stack as it has values has met no
function. -/
theorem eq_nil_of_popNumbers {n : Nat} {stack : List Value} {p : List Float × List Value}
    (h : popNumbers n stack = .ok p) (hle : stack.length ≤ n) :
    p.2 = [] ∧ shortage stack = .stackUnderflow := by
  obtain ⟨hlength, hstack⟩ := eq_of_popNumbers h
  have hnil : p.2 = [] := by
    rw [hstack, List.length_append, List.length_reverse, List.length_map] at hle
    exact List.eq_nil_of_length_eq_zero (by omega)
  refine ⟨hnil, ?_⟩
  rw [hstack, hnil, List.append_nil, ← List.map_reverse]
  exact shortage_numbers _

/-! ## Too few values -/

theorem popNumber_short {stack : List Value} (h : stack.length < 1) :
    popNumber stack = .error (shortage stack) := by
  obtain rfl := List.eq_nil_of_length_eq_zero (Nat.lt_one_iff.mp h)
  rfl

theorem call_short {argc : Nat} {s : State σ} (h : s.stack.length < argc + 1) :
    call argc s = .error (shortage s.stack) := by
  have hle := Nat.le_of_lt_succ h
  rw [call]
  cases hargs : popNumbers argc s.stack with
  | error fault => rw [eq_shortage_of_popNumbers hargs hle]; rfl
  | ok p =>
      obtain ⟨args, rest⟩ := p
      obtain ⟨hrest, hshortage⟩ := eq_nil_of_popNumbers hargs hle
      obtain rfl : rest = [] := hrest
      rw [hshortage]
      rfl

/-- A fault is named for the first value that is in the way. -/
theorem execute_short {s : State σ} {i : Instruction} (h : s.stack.length < i.effect.pops) :
    execute env division index s i = .error (shortage s.stack) := by
  cases i with
  | constant value => cases h
  | get name => cases h
  | set name =>
      rw [execute, popNumber_short h]
      rfl
  | call argc => exact call_short h
  | pop =>
      rw [execute, List.eq_nil_of_length_eq_zero (Nat.lt_one_iff.mp h)]
      rfl
  | unary op =>
      rw [execute, popNumber_short h]
      rfl
  | binary op =>
      cases hpop : popNumber s.stack with
      | error fault =>
          rw [execute, hpop]
          rcases popNumber_error hpop with ⟨hstack, rfl⟩ | ⟨f, rest, hstack, rfl⟩ <;>
            (rw [hstack]; rfl)
      | ok p =>
          -- the only value is a number, and the end of the stack is met below it
          obtain ⟨b, rest⟩ := p
          have hstack : s.stack = .number b :: rest := eq_of_popNumber hpop
          rw [hstack] at h
          obtain rfl : rest = [] :=
            List.eq_nil_of_length_eq_zero (Nat.lt_one_iff.mp (Nat.lt_of_succ_lt_succ h))
          rw [execute, hpop, hstack]
          rfl

/-! ## Enough values -/

theorem popNumber_enough {stack : List Value} (h : 1 ≤ stack.length) :
    popNumber stack ≠ .error .stackUnderflow := by
  intro hpop
  rcases popNumber_error hpop with ⟨rfl, -⟩ | ⟨f, rest, -, hfault⟩
  · cases h
  · cases hfault

theorem call_enough {argc : Nat} {s : State σ} (h : argc + 1 ≤ s.stack.length) :
    call argc s ≠ .error .stackUnderflow := by
  intro hcall
  rcases call_error hcall with hargs | ⟨args, rest, hargs, hfault⟩
  · rcases popNumbers_error hargs with ⟨hlength, -⟩ | ⟨f, -, hfault⟩
    · omega
    · cases hfault
  · rcases hfault with ⟨rfl, -⟩ | ⟨x, below, -, hfault⟩ | ⟨f, below, -, -, hfault⟩
    · obtain ⟨hlength, hstack⟩ := eq_of_popNumbers hargs
      rw [hstack, List.append_nil, List.length_reverse, List.length_map] at h
      omega
    · cases hfault
    · cases hfault

theorem evaluate_ne_stackUnderflow (op : BinaryOp) (a b : Float) :
    op.evaluate division a b ≠ .error .stackUnderflow := by
  unfold BinaryOp.evaluate
  split
  · split <;> simp
  · simp

/-- No instruction fails for want of values where there are enough. -/
theorem execute_enough {s : State σ} {i : Instruction} (h : i.effect.pops ≤ s.stack.length) :
    execute env division index s i ≠ .error .stackUnderflow := by
  intro hi
  cases i with
  | constant value => cases hi
  | get name =>
      rcases cases_of_bind hi with hresolve | ⟨p, -, hi⟩
      · rcases resolve_error hresolve with hfault | ⟨read, hfault⟩ <;> cases hfault
      · cases hi
  | set name =>
      rcases cases_of_bind hi with hpop | ⟨p, -, hi⟩
      · exact popNumber_enough h hpop
      · cases hi
  | call argc => exact call_enough h hi
  | pop =>
      rcases cases_of_bind hi with hpop | ⟨p, -, hi⟩
      · rw [(popValue_error hpop).1] at h
        cases h
      · cases hi
  | unary op =>
      rcases cases_of_bind hi with hpop | ⟨p, -, hi⟩
      · exact popNumber_enough h hpop
      · cases hi
  | binary op =>
      have htwo : 2 ≤ s.stack.length := h
      rcases cases_of_bind hi with hpop | ⟨p, hp, hi⟩
      · exact popNumber_enough (by omega) hpop
      rcases cases_of_bind hi with hpop | ⟨q, -, hi⟩
      · rw [eq_of_popNumber hp, List.length_cons] at htwo
        exact popNumber_enough (by omega) hpop
      rcases cases_of_bind hi with hresult | ⟨x, -, hi⟩
      · exact evaluate_ne_stackUnderflow op _ _ hresult
      · cases hi

/-! ## The two agree -/

/-- What an instruction declares is what executing it does, in every state. -/
theorem execute_heeds (env : Environment σ) (division : DivisionPolicy) (index : Nat)
    (s : State σ) (i : Instruction) :
    Heeds i.effect s.stack (execute env division index s i) where
  exchanges _ h := exchange_of_execute h
  short := execute_short
  enough := execute_enough

end Pixelwise.Machine
