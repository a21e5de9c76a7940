/-
Executing — what code that was executed has found and done.

An instruction that succeeds found on the stack whatever it took off, so its
success can be taken apart (`exists_of_bind`, `exists_of_call`), and what it
leaves differs from what it found at the top only (`exchange_of_execute`).  A
run either completes, and then it has executed all of its code
(`exists_of_runFrom`), or it fails at one instruction, and then it has executed
what stands before it (`exists_failsAt`).
-/
import Pixelwise.Machine.Lined

namespace Pixelwise.Machine

variable {σ : Type} {env : Environment σ} {division : DivisionPolicy} {index : Nat}

/-! ## One instruction -/

/-- A computation that comes to something came to something at each step. -/
theorem exists_of_bind {ε α β : Type} {x : Except ε α} {f : α → Except ε β} {r : β}
    (h : x >>= f = .ok r) : ∃ a, x = .ok a ∧ f a = .ok r := by
  cases x with
  | error e => cases h
  | ok a => exact ⟨a, rfl, h⟩

theorem eq_of_popValue {stack : List Value} {p : Value × List Value}
    (h : popValue stack = .ok p) : stack = p.1 :: p.2 := by
  cases stack with
  | nil => cases h
  | cons v rest =>
      cases h
      rfl

theorem eq_of_popNumber {stack : List Value} {p : Float × List Value}
    (h : popNumber stack = .ok p) : stack = .number p.1 :: p.2 := by
  cases stack with
  | nil => cases h
  | cons v rest =>
      cases v with
      | number x =>
          cases h
          rfl
      | function f => cases h

/-- The numbers taken off lie on the stack in reverse. -/
theorem eq_of_popNumbers {n : Nat} {stack : List Value} {p : List Float × List Value}
    (h : popNumbers n stack = .ok p) :
    p.1.length = n ∧ stack = (p.1.map Value.number).reverse ++ p.2 := by
  induction n generalizing stack p with
  | zero =>
      cases h
      exact ⟨rfl, rfl⟩
  | succ n ih =>
      obtain ⟨q, hq, h⟩ := exists_of_bind h
      obtain ⟨r, hr, h⟩ := exists_of_bind h
      cases h
      obtain ⟨hlength, hrest⟩ := ih hr
      rw [eq_of_popNumber hq, hrest]
      simp [hlength]

/-- A call that succeeds finds its arguments above a function, and leaves
what the function comes to in their place. -/
theorem exists_of_call {argc : Nat} {s t : State σ} (h : call argc s = .ok t) :
    ∃ (args : List Float) (f : Builtin) (rest : List Value) (x : Float) (k : Generator),
      args.length = argc ∧
      s.stack = (args.map Value.number).reverse ++ .function f :: rest ∧
      f.apply args s.generator = some (x, k) ∧
      t = { s with stack := .number x :: rest, generator := k } := by
  obtain ⟨⟨args, above⟩, hargs, h⟩ := exists_of_bind h
  obtain ⟨⟨callee, rest⟩, hcallee, h⟩ := exists_of_bind h
  obtain ⟨hlength, hstack⟩ := eq_of_popNumbers hargs
  cases callee with
  | number x => cases h
  | function f =>
      cases happly : f.apply args s.generator with
      | none => simp [happly] at h
      | some r =>
          simp only [happly] at h
          cases h
          exact ⟨args, f, rest, r.1, r.2, hlength, eq_of_popValue hcallee ▸ hstack, happly, rfl⟩

/-- An instruction that succeeds exchanges the topmost values for others, as
many of each as its effect says, and leaves those below as they were. -/
theorem exchange_of_execute {s t : State σ} {i : Instruction}
    (h : execute env division index s i = .ok t) :
    ∃ taken put below, taken.length = i.effect.pops ∧ put.length = i.effect.pushes ∧
      s.stack = taken ++ below ∧ t.stack = put ++ below := by
  cases i with
  | constant value =>
      cases h
      exact ⟨[], [.number value], s.stack, rfl, rfl, rfl, rfl⟩
  | get name =>
      obtain ⟨p, -, h⟩ := exists_of_bind h
      cases h
      exact ⟨[], [p.1], s.stack, rfl, rfl, rfl, rfl⟩
  | set name =>
      obtain ⟨p, hp, h⟩ := exists_of_bind h
      cases h
      exact ⟨[.number p.1], [], p.2, rfl, rfl, eq_of_popNumber hp, rfl⟩
  | call argc =>
      obtain ⟨args, f, rest, x, k, rfl, hstack, -, rfl⟩ := exists_of_call h
      refine ⟨(args.map Value.number).reverse ++ [.function f], [.number x], rest, ?_, rfl, ?_, rfl⟩
      · simp [Instruction.effect]
      · rw [hstack, List.append_assoc]
        rfl
  | pop =>
      obtain ⟨p, hp, h⟩ := exists_of_bind h
      cases h
      exact ⟨[p.1], [], p.2, rfl, rfl, eq_of_popValue hp, rfl⟩
  | unary op =>
      obtain ⟨p, hp, h⟩ := exists_of_bind h
      cases h
      exact ⟨[.number p.1], [.number (op.apply p.1)], p.2, rfl, rfl, eq_of_popNumber hp, rfl⟩
  | binary op =>
      obtain ⟨p, hp, h⟩ := exists_of_bind h
      obtain ⟨q, hq, h⟩ := exists_of_bind h
      obtain ⟨x, -, h⟩ := exists_of_bind h
      cases h
      have hstack := eq_of_popNumber hp
      rw [eq_of_popNumber hq] at hstack
      exact ⟨[.number p.1, .number q.1], [.number x], q.2, rfl, rfl, hstack, rfl⟩

/-! ## What fails -/

/-- A computation that fails failed at its first step or behind it. -/
theorem cases_of_bind {ε α β : Type} {x : Except ε α} {f : α → Except ε β} {e : ε}
    (h : x >>= f = .error e) : x = .error e ∨ ∃ a, x = .ok a ∧ f a = .error e := by
  cases x with
  | error e' =>
      cases h
      exact Or.inl rfl
  | ok a => exact Or.inr ⟨a, rfl, h⟩

theorem popValue_error {stack : List Value} {fault : Fault} (h : popValue stack = .error fault) :
    stack = [] ∧ fault = .stackUnderflow := by
  cases stack with
  | nil =>
      cases h
      exact ⟨rfl, rfl⟩
  | cons v rest => cases h

theorem popNumber_error {stack : List Value} {fault : Fault}
    (h : popNumber stack = .error fault) :
    (stack = [] ∧ fault = .stackUnderflow) ∨
      ∃ f rest, stack = .function f :: rest ∧ fault = .unexpectedFunction f := by
  cases stack with
  | nil =>
      cases h
      exact Or.inl ⟨rfl, rfl⟩
  | cons v rest =>
      cases v with
      | number x => cases h
      | function f =>
          cases h
          exact Or.inr ⟨f, rest, rfl, rfl⟩

/-- Numbers cannot be taken off where there are too few values, or where a
function is in the way. -/
theorem popNumbers_error {n : Nat} {stack : List Value} {fault : Fault}
    (h : popNumbers n stack = .error fault) :
    (stack.length < n ∧ fault = .stackUnderflow) ∨
      ∃ f, .function f ∈ stack.take n ∧ fault = .unexpectedFunction f := by
  induction n generalizing stack with
  | zero => cases h
  | succ n ih =>
      rcases cases_of_bind h with h | ⟨p, hp, h⟩
      · rcases popNumber_error h with ⟨rfl, rfl⟩ | ⟨f, rest, rfl, rfl⟩
        · exact Or.inl ⟨Nat.zero_lt_succ n, rfl⟩
        · exact Or.inr ⟨f, by simp, rfl⟩
      · rcases cases_of_bind h with h | ⟨q, -, h⟩
        · rw [eq_of_popNumber hp]
          rcases ih h with ⟨hlength, rfl⟩ | ⟨f, hf, rfl⟩
          · exact Or.inl ⟨Nat.succ_lt_succ hlength, rfl⟩
          · exact Or.inr ⟨f, by simp [hf], rfl⟩
        · cases h

/-- A name stands for nothing where it is read past an end or is unknown. -/
theorem resolve_error {s : State σ} {name : String} {fault : Fault}
    (h : resolve env index name s = .error fault) :
    fault = .undefinedName name ∨ ∃ read, fault = .indexOutOfBounds read := by
  unfold resolve at h
  split at h
  · cases h
  · split at h
    · cases h
      exact Or.inr ⟨_, rfl⟩
    · cases h
    · split at h
      · cases h
      · cases h
        exact Or.inl rfl

/-- A call fails at its arguments, at what is under them, or because they are
too many or too few. -/
theorem call_error {argc : Nat} {s : State σ} {fault : Fault}
    (h : call argc s = .error fault) :
    popNumbers argc s.stack = .error fault ∨
      ∃ args rest, popNumbers argc s.stack = .ok (args, rest) ∧
        ((rest = [] ∧ fault = .stackUnderflow) ∨
          (∃ x below, rest = .number x :: below ∧ fault = .notCallable) ∨
          ∃ f below, rest = .function f :: below ∧ f.arity ≠ argc ∧
            fault = .arityMismatch f argc) := by
  rcases cases_of_bind h with h | ⟨⟨args, rest⟩, hargs, h⟩
  · exact Or.inl h
  refine Or.inr ⟨args, rest, hargs, ?_⟩
  rcases cases_of_bind h with h | ⟨⟨callee, below⟩, hcallee, h⟩
  · exact Or.inl (popValue_error h)
  have hrest := eq_of_popValue hcallee
  cases callee with
  | number x =>
      cases h
      exact Or.inr (Or.inl ⟨x, below, hrest, rfl⟩)
  | function f =>
      cases happly : f.apply args s.generator with
      | some r => simp [happly] at h
      | none =>
          simp only [happly] at h
          cases h
          refine Or.inr (Or.inr ⟨f, below, hrest, fun harity => ?_, rfl⟩)
          have hsome := (f.isSome_apply args s.generator).mpr
            ((eq_of_popNumbers hargs).1.trans harity.symm)
          rw [happly] at hsome
          cases hsome

/-! ## Code -/

/-- A run executes a prefix of its code and leaves what this has made.  It
stops where the code ends, or else where an instruction fails. -/
theorem runFrom_stops (env : Environment σ) (division : DivisionPolicy) (index : Nat)
    (chunk : Chunk) (offset : Nat) (s : State σ) (code : List Instruction) :
    ∃ k t, executeAll env division index s (code.take k) = .ok t ∧
      (k = code.length ∧ runFrom env division index chunk offset s code =
          ⟨.ok t.bindings, t.generator, t.host⟩ ∨
        ∃ i fault, code[k]? = some i ∧ execute env division index t i = .error fault ∧
          runFrom env division index chunk offset s code =
            ⟨.error ⟨fault, chunk.lineAt (offset + k)⟩, t.generator, t.host⟩) := by
  induction code generalizing offset s with
  | nil => exact ⟨0, s, rfl, .inl ⟨rfl, rfl⟩⟩
  | cons i rest ih =>
      rw [runFrom]
      cases hi : execute env division index s i with
      | error fault => exact ⟨0, s, rfl, .inr ⟨i, fault, rfl, hi, rfl⟩⟩
      | ok u =>
          obtain ⟨k, t, hexecuted, hends⟩ := ih (offset + 1) u
          rw [show offset + 1 + k = offset + (k + 1) by omega] at hends
          refine ⟨k + 1, t, ?_, ?_⟩
          · rw [List.take_succ_cons, executeAll, List.foldlM_cons, hi]
            exact hexecuted
          · rw [List.length_cons, Nat.succ_inj]
            exact hends

/-- Code that can be executed to its end is run to its end. -/
theorem runFrom_of_executeAll {chunk : Chunk} {offset : Nat} {s t : State σ}
    {code : List Instruction} (h : executeAll env division index s code = .ok t) :
    runFrom env division index chunk offset s code = ⟨.ok t.bindings, t.generator, t.host⟩ := by
  induction code generalizing offset s with
  | nil =>
      cases h
      rfl
  | cons i rest ih =>
      rw [executeAll, List.foldlM_cons] at h
      obtain ⟨u, hu, h⟩ := exists_of_bind h
      rw [runFrom, hu]
      exact ih h

/-- A run that completes has executed all of its code, and leaves the bindings
that this has made. -/
theorem bindings_of_runFrom {chunk : Chunk} {offset : Nat} {s : State σ}
    {code : List Instruction} {bindings : Bindings}
    (h : (runFrom env division index chunk offset s code).result = .ok bindings) :
    ∃ t, executeAll env division index s code = .ok t ∧ t.bindings = bindings := by
  obtain ⟨k, t, hexecuted, ⟨rfl, hrun⟩ | ⟨i, fault, -, -, hrun⟩⟩ :=
    runFrom_stops env division index chunk offset s code
  · rw [List.take_length] at hexecuted
    rw [hrun] at h
    exact ⟨t, hexecuted, Except.ok.inj h⟩
  · rw [hrun] at h
    cases h

theorem exists_of_runFrom {chunk : Chunk} {offset : Nat} {s : State σ} {code : List Instruction}
    {bindings : Bindings}
    (h : (runFrom env division index chunk offset s code).result = .ok bindings) :
    ∃ t, executeAll env division index s code = .ok t := by
  obtain ⟨t, ht, -⟩ := bindings_of_runFrom h
  exact ⟨t, ht⟩

/-- Whoever executes all of some code executes the front of it. -/
theorem executeAll_take {s t : State σ} {code : List Instruction}
    (h : executeAll env division index s code = .ok t) (n : Nat) :
    ∃ u, executeAll env division index s (code.take n) = .ok u := by
  rw [← code.take_append_drop n, executeAll, List.foldlM_append] at h
  obtain ⟨u, hu, -⟩ := exists_of_bind h
  exact ⟨u, hu⟩

/-- A run that fails has executed the code before one instruction. -/
theorem exists_failsAt {chunk : Chunk} {offset : Nat} {s : State σ} {code : List Instruction}
    {failure : Failure}
    (h : (runFrom env division index chunk offset s code).result = .error failure) :
    ∃ k t, FailsAt env division index s code k t failure.fault ∧
      failure.line = chunk.lineAt (offset + k) := by
  obtain ⟨k, t, hexecuted, ⟨-, hrun⟩ | ⟨i, fault, hi, hfault, hrun⟩⟩ :=
    runFrom_stops env division index chunk offset s code
  · rw [hrun] at h
    cases h
  · rw [hrun] at h
    cases h
    exact ⟨k, t, ⟨i, hi, hexecuted, hfault⟩, rfl⟩

end Pixelwise.Machine
