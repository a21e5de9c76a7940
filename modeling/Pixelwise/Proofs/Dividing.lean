/-
Dividing — how far the policy for zero divisors makes a difference.

An instruction does the same under both policies unless its divisor is zero
(`execute_fail`), so a run that comes to no zero divisor is the same under
both (`runFrom_fail`), and one that comes to some fails at the first of them
(`runFrom_fail_of_meets`).  Whatever succeeds where a zero divisor is a fault
succeeds in the same way where it is none (`executeAll_zero`).

Main statement: `policies_agree`, that two runs under the two policies are the
same run, up to the first zero divisor if there is one.
-/
import Pixelwise.Machine.Divisor
import Pixelwise.Machine.Supply
import Pixelwise.Proofs.Executing

namespace Pixelwise.Machine

variable {σ : Type} {env : Environment σ} {index : Nat} {s : State σ}

/-! ## One instruction -/

theorem zeroDivisor_iff {i : Instruction} :
    zeroDivisor s i = true ↔
      ∃ op a b rest, i = .binary op ∧ op.hasDivisor = true ∧ (b == 0) = true ∧
        s.stack = .number b :: .number a :: rest := by
  constructor
  · intro h
    cases i with
    | binary op =>
        rw [zeroDivisor] at h
        split at h
        · rename_i b a rest hstack
          rw [Bool.and_eq_true] at h
          exact ⟨op, a, b, rest, rfl, h.1, h.2, hstack⟩
        · cases h
    | _ => cases h
  · rintro ⟨op, a, b, rest, rfl, hop, hb, hstack⟩
    simp [zeroDivisor, hstack, hop, hb]

/-- A zero divisor is a fault where the policy says so. -/
theorem execute_fail_of_zeroDivisor {i : Instruction} (h : zeroDivisor s i = true) :
    execute env .fail index s i = .error .divisionByZero := by
  obtain ⟨op, a, b, rest, rfl, hop, hb, hstack⟩ := zeroDivisor_iff.mp h
  simp [execute, hstack, popNumber, bind, Except.bind, BinaryOp.evaluate, hop, hb]

/-- Where zero divisors are harmless they give zero. -/
theorem execute_zero_of_zeroDivisor {op : BinaryOp} {a b : Float} {rest : List Value}
    (hop : op.hasDivisor = true) (hb : (b == 0) = true)
    (hstack : s.stack = .number b :: .number a :: rest) :
    execute env .zero index s (.binary op) = .ok { s with stack := .number 0 :: rest } := by
  simp only [execute, hstack, popNumber, bind, Except.bind, BinaryOp.evaluate, hop, hb,
    and_self, if_true]
  rfl

/-- Where no divisor is zero, the policies agree. -/
theorem execute_fail {i : Instruction} (h : zeroDivisor s i = false) :
    execute env .fail index s i = execute env .zero index s i := by
  cases i with
  | binary op =>
      rw [execute, execute]
      match hstack : s.stack with
      | [] => rfl
      | .function f :: _ => rfl
      | [.number b] => rfl
      | .number b :: .function f :: _ => rfl
      | .number b :: .number a :: rest =>
          have hnot : ¬(op.hasDivisor = true ∧ (b == 0) = true) := by
            simpa [zeroDivisor, hstack] using h
          simp only [popNumber, bind, Except.bind, BinaryOp.evaluate, if_neg hnot]
  | _ => rfl

theorem execute_zero {t : State σ} {i : Instruction} (h : execute env .fail index s i = .ok t) :
    execute env .zero index s i = .ok t := by
  cases hi : zeroDivisor s i with
  | true =>
      rw [execute_fail_of_zeroDivisor hi] at h
      cases h
  | false => rw [← execute_fail hi, h]

/-- Only a zero divisor is a division by zero, and only where the policy says
so. -/
theorem execute_divisionByZero {division : DivisionPolicy} {i : Instruction}
    (h : execute env division index s i = .error .divisionByZero) :
    division = .fail ∧ zeroDivisor s i = true := by
  cases i with
  | constant value => cases h
  | get name =>
      rcases cases_of_bind h with h | ⟨p, -, h⟩
      · rcases resolve_error h with h | ⟨read, h⟩ <;> cases h
      · cases h
  | set name | unary op =>
      rcases cases_of_bind h with h | ⟨p, -, h⟩
      · rcases popNumber_error h with ⟨-, h⟩ | ⟨f, rest, -, h⟩ <;> cases h
      · cases h
  | pop =>
      rcases cases_of_bind h with h | ⟨p, -, h⟩
      · cases (popValue_error h).2
      · cases h
  | call argc =>
      rcases call_error h with h | ⟨args, rest, -, ⟨-, h⟩ | ⟨x, below, -, h⟩ | ⟨f, below, -, -, h⟩⟩
      · rcases popNumbers_error h with ⟨-, h⟩ | ⟨f, -, h⟩ <;> cases h
      all_goals cases h
  | binary op =>
      rcases cases_of_bind h with h | ⟨p, hp, h⟩
      · rcases popNumber_error h with ⟨-, h⟩ | ⟨f, rest, -, h⟩ <;> cases h
      rcases cases_of_bind h with h | ⟨q, hq, h⟩
      · rcases popNumber_error h with ⟨-, h⟩ | ⟨f, rest, -, h⟩ <;> cases h
      rcases cases_of_bind h with h | ⟨x, -, h⟩
      · unfold BinaryOp.evaluate at h
        split at h
        · rename_i hzero
          cases division with
          | zero => cases h
          | fail =>
              have hstack := eq_of_popNumber hp
              rw [eq_of_popNumber hq] at hstack
              exact ⟨rfl, zeroDivisor_iff.mpr ⟨op, _, _, _, rfl, hzero.1, hzero.2, hstack⟩⟩
        · cases h
      · cases h

/-! ## Runs -/

variable {chunk : Chunk} {offset : Nat} {code : List Instruction}

theorem runFrom_fail (h : meetsZero env index s code = false) :
    runFrom env .fail index chunk offset s code = runFrom env .zero index chunk offset s code := by
  induction code generalizing offset s with
  | nil => rfl
  | cons i rest ih =>
      rw [meetsZero, Bool.or_eq_false_iff] at h
      obtain ⟨hi, hrest⟩ := h
      rw [runFrom, runFrom, execute_fail hi]
      cases hexecute : execute env .zero index s i with
      | ok t =>
          rw [hexecute] at hrest
          exact ih hrest
      | error fault => rfl

theorem runFrom_fail_of_meets (h : meetsZero env index s code = true) :
    ∃ line, (runFrom env .fail index chunk offset s code).result =
      .error ⟨.divisionByZero, line⟩ := by
  induction code generalizing offset s with
  | nil => cases h
  | cons i rest ih =>
      rw [runFrom]
      by_cases hi : zeroDivisor s i = true
      · rw [execute_fail_of_zeroDivisor hi]
        exact ⟨_, rfl⟩
      · rw [meetsZero, Bool.or_eq_true] at h
        have hrest := h.resolve_left hi
        rw [execute_fail (Bool.eq_false_iff.mpr hi)]
        cases hexecute : execute env .zero index s i with
        | ok t =>
            rw [hexecute] at hrest
            exact ih hrest
        | error fault =>
            rw [hexecute] at hrest
            cases hrest

theorem executeAll_zero {t : State σ} (h : executeAll env .fail index s code = .ok t) :
    executeAll env .zero index s code = .ok t ∧
      reads env .zero index s code = reads env .fail index s code := by
  induction code generalizing s with
  | nil => exact ⟨h, rfl⟩
  | cons i rest ih =>
      rw [executeAll, List.foldlM_cons] at h
      obtain ⟨u, hu, h⟩ := exists_of_bind h
      obtain ⟨hall, hreads⟩ := ih h
      rw [executeAll, List.foldlM_cons, reads, reads, hu, execute_zero hu]
      simp only [hreads, and_true]
      exact hall

/-- A run that meets no zero divisor reads the same computed inputs, also when
it fails. -/
theorem reads_fail (h : meetsZero env index s code = false) :
    reads env .fail index s code = reads env .zero index s code := by
  induction code generalizing s with
  | nil => rfl
  | cons i rest ih =>
      rw [meetsZero, Bool.or_eq_false_iff] at h
      obtain ⟨hi, hrest⟩ := h
      rw [reads, reads, execute_fail hi]
      cases hexecute : execute env .zero index s i with
      | ok t =>
          rw [hexecute] at hrest
          simp only [ih hrest]
      | error fault => rfl

/-- Where zero divisors are harmless, no run fails at one. -/
theorem runFrom_zero_ne (line : Nat) :
    (runFrom env .zero index chunk offset s code).result ≠ .error ⟨.divisionByZero, line⟩ := by
  intro h
  obtain ⟨k, t, ⟨i, -, -, hfail⟩, -⟩ := exists_failsAt h
  cases (execute_divisionByZero hfail).1

end Pixelwise.Machine

namespace Pixelwise

open Machine

variable {σ : Type}

/-- A run in which zero divisors are a fault and one in which they are
harmless are the same run, with the same reads, unless the first fails at a
zero divisor.  Then they pass through the same states and read the same inputs
up to that instruction, and there the second puts zero on the stack.  It never
fails at a zero divisor. -/
theorem policies_agree (env : Environment σ) (index : Nat) (chunk : Chunk)
    (generator : Generator) (host : σ) :
    let start : State σ := ⟨[], .empty, generator, host⟩
    let code := chunk.instructions
    let failing := run env .fail index chunk generator host
    let lenient := run env .zero index chunk generator host
    ((∀ line, failing.result ≠ .error ⟨.divisionByZero, line⟩) →
      lenient = failing ∧ reads env .zero index start code = reads env .fail index start code) ∧
    (∀ line, failing.result = .error ⟨.divisionByZero, line⟩ →
      ∃ k t, FailsAt env .fail index start code k t .divisionByZero ∧ line = chunk.lineAt k ∧
        (∀ j ≤ k, ∃ u, executeAll env .fail index start (code.take j) = .ok u ∧
          executeAll env .zero index start (code.take j) = .ok u ∧
          reads env .zero index start (code.take j) =
            reads env .fail index start (code.take j)) ∧
        ∃ a b rest, t.stack = .number b :: .number a :: rest ∧ (b == 0) = true ∧
          executeAll env .zero index start (code.take (k + 1)) =
            .ok { t with stack := .number 0 :: rest }) ∧
    ∀ line, lenient.result ≠ .error ⟨.divisionByZero, line⟩ := by
  intro start code failing lenient
  refine ⟨fun h => ?_, fun line h => ?_, runFrom_zero_ne⟩
  · have hmeets : meetsZero env index start code = false := by
      refine Bool.eq_false_iff.mpr fun hmeets => ?_
      have hfails : ∃ line, failing.result = .error ⟨.divisionByZero, line⟩ :=
        runFrom_fail_of_meets hmeets
      exact hfails.elim h
    exact ⟨(runFrom_fail hmeets).symm, (reads_fail hmeets).symm⟩
  · obtain ⟨k, t, hfails, hline⟩ := exists_failsAt h
    rw [Nat.zero_add] at hline
    refine ⟨k, t, hfails, hline, fun j hj => ?_, ?_⟩
    · obtain ⟨i, -, hrun, -⟩ := hfails
      obtain ⟨u, hu⟩ := executeAll_take hrun j
      rw [List.take_take, Nat.min_eq_left hj] at hu
      exact ⟨u, hu, executeAll_zero hu⟩
    · obtain ⟨i, hi, hrun, hfail⟩ := hfails
      obtain ⟨op, a, b, rest, rfl, hop, hb, hstack⟩ :=
        zeroDivisor_iff.mp (execute_divisionByZero hfail).2
      refine ⟨a, b, rest, hstack, hb, ?_⟩
      rw [List.take_add_one, hi, executeAll_append, (executeAll_zero hrun).1]
      change executeAll env .zero index t [.binary op] = _
      rw [executeAll, List.foldlM_cons, execute_zero_of_zeroDivisor hop hb hstack]
      rfl

/-- A clock is read and then divided by an input that is zero: it was read once
under both policies when the quotient is asked for. -/
theorem policies_agree_quotient :
    let env : Environment Nat :=
      ⟨⟨[("s", .sequence #[0]), ("t", .computed fun n => (1.5, n + 1))]⟩⟩
    let chunk : Chunk := ⟨[.get "t", .get "s", .binary .divide, .pop], [1, 2, 3, 3], 2⟩
    let start : State Nat := ⟨[], .empty, .ofSeed 0, 7⟩
    (run env .fail 0 chunk (.ofSeed 0) 7).result = .error ⟨.divisionByZero, 3⟩ ∧
      reads env .zero 0 start (chunk.instructions.take 2) = [("t", 1.5)] ∧
      ∃ k t, FailsAt env .fail 0 start chunk.instructions k t .divisionByZero ∧
        ∃ a b rest, t.stack = .number b :: .number a :: rest ∧ (b == 0) = true ∧
          executeAll env .zero 0 start (chunk.instructions.take (k + 1)) =
            .ok { t with stack := .number 0 :: rest } := by
  intro env chunk start
  have hfails : (run env .fail 0 chunk (.ofSeed 0) 7).result = .error ⟨.divisionByZero, 3⟩ := rfl
  obtain ⟨k, t, hat, -, -, hzero⟩ := (policies_agree env 0 chunk (.ofSeed 0) 7).2.1 3 hfails
  exact ⟨hfails, rfl, k, t, hat, hzero⟩

end Pixelwise
