/-
Code of well-named trees cannot go wrong.

`Safely` is the weakest precondition of code: every instruction succeeds, or
it fails for one of the two reasons that a program cannot rule out
(`Excused`), an input that is too short or a divisor that is zero.
`safely_code` is the invariant: the code of an expression whose names have
no problem leaves the stack as it was with a number on top, and then every
name assigned so far has a value.  Functions are on the stack only while
their arguments are computed.
-/
import Pixelwise.Machine.Lined
import Pixelwise.Proofs.Language
import Pixelwise.Proofs.Simulation

namespace Pixelwise.Machine

variable {σ : Type}

/-- The faults that code of a program can meet. -/
inductive Excused (env : Environment σ) (division : DivisionPolicy) (index : Nat)
    (s : State σ) : Instruction → Fault → Prop
  /-- A sequence is read past its end. -/
  | outOfBounds {name : String} {values : Array Float} :
      Builtin.ofName? name = none → env.get? name = some (.sequence values) →
      values.size ≤ index →
      Excused env division index s (.get name) (.indexOutOfBounds ⟨name, index, values.size⟩)
  /-- The divisor on top of the stack is zero. -/
  | zeroDivisor {op : BinaryOp} {a b : Float} {rest : List Value} :
      op.hasDivisor = true → division = .fail → s.stack = .number b :: .number a :: rest →
      (b == 0) = true →
      Excused env division index s (.binary op) .divisionByZero

variable (env : Environment σ) (division : DivisionPolicy) (index : Nat)

/-- Code runs from a state to one that satisfies `Q`, unless it meets a fault
that is excused. -/
def Safely (Q : State σ → Prop) : List (Instruction × Nat) → State σ → Prop
  | [], s => Q s
  | (i, _) :: rest, s =>
    match execute env division index s i with
    | .ok t => Safely Q rest t
    | .error fault => Excused env division index s i fault

variable {env division index} {Q : State σ → Prop} {rest : List (Instruction × Nat)}
  {line : Nat} {s : State σ}

/-- A run that safely goes through fails only at an instruction that is
excused. -/
theorem Safely.failure {code : List (Instruction × Nat)}
    (h : Safely env division index Q code s) {failure : Failure}
    (hf : (runLined env division index s code).result = .error failure) :
    ∃ before i after t, code = before ++ (i, failure.line) :: after ∧
      executeAll env division index s (before.map Prod.fst) = .ok t ∧
      execute env division index t i = .error failure.fault ∧
      Excused env division index t i failure.fault := by
  induction code generalizing s with
  | nil => cases hf
  | cons p rest ih =>
      obtain ⟨i, line⟩ := p
      rw [Safely] at h
      rw [runLined] at hf
      cases hi : execute env division index s i with
      | ok t =>
          rw [hi] at h hf
          obtain ⟨before, j, after, u, hcode, hrun, hj⟩ := ih h hf
          refine ⟨(i, line) :: before, j, after, u, by rw [hcode]; rfl, ?_, hj⟩
          simp only [executeAll, List.map_cons, List.foldlM_cons, hi]
          exact hrun
      | error fault =>
          rw [hi] at h hf
          cases hf
          exact ⟨[], i, rest, s, rfl, rfl, hi, h⟩

/-! ## One instruction -/

theorem safely_constant (x : Float)
    (h : Safely env division index Q rest { s with stack := .number x :: s.stack }) :
    Safely env division index Q ((.constant x, line) :: rest) s := h

theorem safely_get_function {name : String} {f : Builtin} (hf : Builtin.ofName? name = some f)
    (h : Safely env division index Q rest { s with stack := .function f :: s.stack }) :
    Safely env division index Q ((.get name, line) :: rest) s := by
  simp only [Safely, execute, resolve, hf]
  exact h

/-- A name that is an input or has a value is read, unless it is a sequence
that is too short. -/
theorem safely_get {name : String} (hf : Builtin.ofName? name = none)
    (hname : (env.get? name).isSome ∨ (s.bindings.get? name).isSome)
    (h : ∀ x host,
      Safely env division index Q rest { s with stack := .number x :: s.stack, host }) :
    Safely env division index Q ((.get name, line) :: rest) s := by
  simp only [Safely, execute, resolve, hf, Environment.resolve]
  cases he : env.get? name with
  | none =>
      obtain ⟨x, hx⟩ := Option.isSome_iff_exists.mp (hname.resolve_left (by simp [he]))
      simp only [hx]
      exact h x s.host
  | some input =>
      cases input with
      | constant value => exact h value s.host
      | computed read => exact h (read s.host).1 (read s.host).2
      | sequence values =>
          simp only [Input.valueAt?]
          cases hv : values[index]? with
          | some value => exact h value s.host
          | none =>
              exact .outOfBounds hf he (by simpa using hv)

theorem safely_set {name : String} {x : Float} {stack : List Value}
    (hs : s.stack = .number x :: stack)
    (h : Safely env division index Q rest
      { s with stack, bindings := s.bindings.set name x }) :
    Safely env division index Q ((.set name, line) :: rest) s := by
  simp only [Safely, execute, hs, popNumber]
  exact h

theorem safely_pop {v : Value} {stack : List Value} (hs : s.stack = v :: stack)
    (h : Safely env division index Q rest
      { s with stack, bindings := s.bindings.note v }) :
    Safely env division index Q ((.pop, line) :: rest) s := by
  simp only [Safely, execute, hs, popValue]
  exact h

theorem safely_unary {op : UnaryOp} {x : Float} {stack : List Value}
    (hs : s.stack = .number x :: stack)
    (h : Safely env division index Q rest { s with stack := .number (op.apply x) :: stack }) :
    Safely env division index Q ((.unary op, line) :: rest) s := by
  simp only [Safely, execute, hs, popNumber]
  exact h

theorem safely_binary {op : BinaryOp} {a b : Float} {stack : List Value}
    (hs : s.stack = .number b :: .number a :: stack)
    (h : ∀ x, Safely env division index Q rest { s with stack := .number x :: stack }) :
    Safely env division index Q ((.binary op, line) :: rest) s := by
  simp only [Safely, execute, hs, popNumber, bind, Except.bind, BinaryOp.evaluate]
  by_cases hz : op.hasDivisor = true ∧ (b == 0) = true
  · rw [if_pos hz]
    cases division with
    | zero => exact h 0
    | fail => exact .zeroDivisor hz.1 rfl hs hz.2
  · rw [if_neg hz]
    exact h (op.apply a b)

theorem safely_operator {op : Operator} {a b : Float} {stack : List Value}
    (hs : s.stack = .number b :: .number a :: stack)
    (h : ∀ x, Safely env division index Q rest { s with stack := .number x :: stack }) :
    Safely env division index Q ((op.code.map fun i => (i, line)) ++ rest) s := by
  rw [Operator.code]
  split
  · exact safely_binary hs fun x => safely_unary rfl (h _)
  · exact safely_binary hs h

/-- A function with as many numbers on top of it as it takes is called. -/
theorem safely_call {f : Builtin} {xs : List Float} {stack : List Value}
    (hs : s.stack = xs.map Value.number ++ .function f :: stack) (hn : xs.length = f.arity)
    (h : ∀ x generator,
      Safely env division index Q rest { s with stack := .number x :: stack, generator }) :
    Safely env division index Q ((.call xs.length, line) :: rest) s := by
  obtain ⟨p, hp⟩ := Option.isSome_iff_exists.mp
    ((f.isSome_apply xs.reverse s.generator).mpr (by rw [List.length_reverse, hn]))
  simp only [Safely, execute, call, hs, popNumbers_map, bind, Except.bind, popValue, hp]
  exact h p.1 p.2

end Pixelwise.Machine

namespace Pixelwise.Syntax

open Machine

variable {σ : Type} {env : Environment σ} {division : DivisionPolicy} {index : Nat}
  {inputs : List String}

/-- The names assigned so far have values. -/
def Known (assigned : List String) (b : Bindings) : Prop :=
  ∀ n ∈ assigned, (b.get? n).isSome

theorem Known.set {assigned : List String} {b : Bindings} (h : Known assigned b) (name : String)
    (x : Float) : Known (name :: assigned) (b.set name x) := by
  intro n hn
  simp only [Bindings.set, Bindings.get?, NameTable.get?_insert]
  split
  · rfl
  · rename_i hne
    exact h n ((List.mem_cons.mp hn).resolve_left fun e => hne e.symm)

/-- The environment has every input that was promised, those apart that are
named like functions. -/
def Provides (env : Environment σ) (inputs : List String) : Prop :=
  ∀ n ∈ inputs, Builtin.ofName? n = none → (env.get? n).isSome

mutual

/-- Code of an expression without problems of names puts a number on the
stack and gives values to the names that it assigns. -/
theorem safely_code (henv : Provides env inputs) {Q : Machine.State σ → Prop}
    {rest : List (Instruction × Nat)} :
    ∀ (e : Expr) (s : Machine.State σ) (assigned : List String),
      diagnose inputs assigned e.mentions = [] → Known assigned s.bindings →
      (∀ (x : Float) (t : Machine.State σ), t.stack = .number x :: s.stack →
        Known (assignedAfter inputs assigned e.mentions) t.bindings →
        Safely env division index Q rest t) →
      Safely env division index Q (e.code ++ rest) s
  | .number token, s, assigned, _, hk, h => safely_constant _ (h _ _ rfl hk)
  | .name token, s, assigned, hd, hk, h => by
      simp only [Expr.mentions, diagnose_cons, diagnose_nil, List.append_nil,
        Mention.problems] at hd
      split at hd
      · cases hd
      · rename_i hl
        rw [undefined_eq_nil_iff] at hd
        have hf := not_isLibrary_iff.mp hl
        exact safely_get hf (hd.imp (fun hi => henv _ hi hf) (hk _)) fun x host => h x _ rfl hk
  | .group inner _, s, assigned, hd, hk, h => safely_code henv inner s assigned hd hk h
  | .call callee args closing, s, assigned, hd, hk, h => by
      simp only [Expr.mentions, List.cons_append, diagnose_cons, diagnose_append, diagnose_nil,
        List.append_nil, List.append_eq_nil_iff] at hd
      obtain ⟨ho, hargs, hc⟩ := hd
      have hl : isLibrary callee := by
        simp only [Mention.problems] at ho
        split at ho
        · assumption
        · simp at ho
      obtain ⟨f, hf⟩ := Option.isSome_iff_exists.mp hl
      have hn : args.length = f.arity := by
        simp only [Mention.problems, hf] at hc
        split at hc
        · assumption
        · cases hc
      simp only [Expr.code, List.append_assoc, List.cons_append, List.nil_append]
      refine safely_get_function hf ?_
      refine safely_codeAll henv args _ assigned hargs hk fun xs t ht hlen hkt => ?_
      rw [← hlen] at hn ⊢
      refine safely_call ht hn fun x generator => h x _ rfl ?_
      simpa [Expr.mentions, Mention.assign] using hkt
  | .unary op operand, s, assigned, hd, hk, h => by
      rw [Expr.code, List.append_assoc]
      exact safely_code henv operand s assigned hd hk fun x t ht hkt =>
        safely_unary ht (h _ _ rfl hkt)
  | .binary op left right, s, assigned, hd, hk, h => by
      simp only [Expr.mentions, diagnose_append, List.append_eq_nil_iff] at hd
      rw [Expr.code, List.append_assoc, List.append_assoc]
      refine safely_code henv left s assigned hd.1 hk fun a t ht hkt => ?_
      refine safely_code henv right t _ hd.2 hkt fun b u hu hku => ?_
      rw [ht] at hu
      rw [operatorCode_eq]
      refine safely_operator hu fun x => h x _ rfl ?_
      simpa [Expr.mentions] using hku
  | .assign target value, s, assigned, hd, hk, h => by
      simp only [Expr.mentions, List.cons_append, diagnose_cons, diagnose_append, diagnose_nil,
        List.append_nil, List.append_eq_nil_iff] at hd
      obtain ⟨ht, hv, -⟩ := hd
      have hw : ¬ isLibrary target ∧ target.lexeme ∉ inputs := by
        simp only [Mention.problems] at ht
        split at ht
        · cases ht
        · split at ht
          · cases ht
          · exact ⟨by assumption, by assumption⟩
      rw [Expr.code, List.append_assoc]
      refine safely_code henv value s assigned hv hk fun x t hst hkt => ?_
      have hks := hkt.set target.lexeme x
      refine safely_set hst ?_
      refine safely_get (not_isLibrary_iff.mp hw.1) (Or.inr (hks _ List.mem_cons_self)) ?_
      intro y host
      refine h y _ rfl ?_
      simpa [Expr.mentions, Mention.assign, hw.1, hw.2] using hks

/-- Code of arguments without problems of names puts as many numbers on the
stack. -/
theorem safely_codeAll (henv : Provides env inputs) {Q : Machine.State σ → Prop}
    {rest : List (Instruction × Nat)} :
    ∀ (es : List Expr) (s : Machine.State σ) (assigned : List String),
      diagnose inputs assigned (mentionsAll es) = [] → Known assigned s.bindings →
      (∀ (xs : List Float) (t : Machine.State σ), t.stack = xs.map Value.number ++ s.stack →
        xs.length = es.length →
        Known (assignedAfter inputs assigned (mentionsAll es)) t.bindings →
        Safely env division index Q rest t) →
      Safely env division index Q (codeAll es ++ rest) s
  | [], s, assigned, _, hk, h => h [] s rfl rfl hk
  | e :: es, s, assigned, hd, hk, h => by
      simp only [mentionsAll, diagnose_append, List.append_eq_nil_iff] at hd
      rw [codeAll, List.append_assoc]
      refine safely_code henv e s assigned hd.1 hk fun x t ht hkt => ?_
      refine safely_codeAll henv es t _ hd.2 hkt fun xs u hu hlen hku => ?_
      refine h (xs ++ [x]) u (by simp [hu, ht]) (by simp [hlen]) ?_
      simpa [mentionsAll] using hku

end

/-- Code of a program without problems of names runs safely to its end. -/
theorem safely_program (henv : Provides env inputs) :
    ∀ (program : List Statement) (s : Machine.State σ) (assigned : List String),
      diagnose inputs assigned (mentions program) = [] → Known assigned s.bindings →
      Safely env division index (fun _ => True) (code program) s
  | [], _, _, _, _ => trivial
  | p :: rest, s, assigned, hd, hk => by
      simp only [mentions, List.flatMap_cons, diagnose_append, List.append_eq_nil_iff] at hd
      simp only [code, List.flatMap_cons, Statement.code, List.append_assoc]
      refine safely_code henv p.value s assigned hd.1 hk fun x t ht hkt => ?_
      exact safely_pop ht (safely_program henv rest _ _ hd.2 hkt)

end Pixelwise.Syntax

namespace Pixelwise

open Syntax Machine

variable {σ : Type} {env : Environment σ} {division : DivisionPolicy} {index : Nat}

/-! ## Compiled chunks -/

/-- An excused fault is met only by an instruction that can fail. -/
theorem Machine.Excused.canFail {s : Machine.State σ} {i : Instruction} {fault : Fault}
    (h : Excused env division index s i fault) : i.canFail = true := by
  cases h with
  | outOfBounds => rfl
  | zeroDivisor hd => exact hd

/-- Where zero divisors are harmless and no sequence is too short, nothing is
excused. -/
theorem Machine.Excused.false {s : Machine.State σ} {i : Instruction} {fault : Fault}
    (h : Excused env .zero index s i fault)
    (henv : ∀ name values, env.get? name = some (.sequence values) → index < values.size) :
    False := by
  cases h with
  | outOfBounds _ he hle => exact absurd (henv _ _ he) (Nat.not_lt.mpr hle)
  | zeroDivisor _ hd => cases hd

/-- Where a run of code may fail: at the instruction at some offset, which is
excused in the state that the instructions before it come to from the beginning
of the run. -/
def FailsExcused (env : Environment σ) (division : DivisionPolicy) (index : Nat) (chunk : Chunk)
    (generator : Generator) (host : σ) (failure : Failure) : Prop :=
  ∃ offset i t, chunk.instructions[offset]? = some i ∧ failure.line = chunk.lineAt offset ∧
    executeAll env division index ⟨[], .empty, generator, host⟩
      (chunk.instructions.take offset) = .ok t ∧
    execute env division index t i = .error failure.fault ∧
    i.canFail = true ∧ Excused env division index t i failure.fault

section

variable {inputs : List String} {source : String} {chunk : Chunk}
  (h : compile inputs source = .ok chunk) (henv : Provides env inputs) {generator : Generator}
  {host : σ}
include h henv

theorem failsExcused_of_compile {failure : Failure}
    (hf : (run env division index chunk generator host).result = .error failure) :
    FailsExcused env division index chunk generator host failure := by
  obtain ⟨program, -, hnames, rfl⟩ := Compiler.compileAfter_eq_ok_iff.mp h
  rw [run_ofEmitted] at hf
  obtain ⟨before, i, after, t, hcode, hrun, hi, hexcused⟩ :=
    Safely.failure (safely_program henv program _ [] hnames (by simp [Known])) hf
  refine ⟨before.length, i, t, ?_, ?_, ?_, hi, hexcused.canFail, hexcused⟩
  · simp [Chunk.ofEmitted, hcode]
  · simp [Chunk.lineAt, Chunk.ofEmitted, hcode]
  · simpa [Chunk.ofEmitted, hcode] using hrun

theorem succeeds_of_long
    (hlong : ∀ name values, env.get? name = some (.sequence values) → index < values.size) :
    ∃ bindings, (run env .zero index chunk generator host).result = .ok bindings := by
  cases hresult : (run env .zero index chunk generator host).result with
  | ok bindings => exact ⟨bindings, rfl⟩
  | error failure =>
      obtain ⟨_, _, _, _, _, _, _, _, hexcused⟩ := failsExcused_of_compile h henv hresult
      exact (hexcused.false hlong).elim

end

/-- Compiled programs cannot go wrong, however often they are run: a run
fails only at a sequence that is too short or a divisor that is zero, and
where zero divisors are harmless and no sequence is too short, every run
succeeds.  Each run begins with the generator and the host that those before it
left. -/
theorem runs_fail_excused {inputs : List String} {source : String} {chunk : Chunk}
    (h : compile inputs source = .ok chunk) (henv : Provides env inputs) (generator : Generator)
    (host : σ) (indices : List Nat) :
    (runs env division chunk generator host indices).length = indices.length ∧
      ∀ before index after, indices = before ++ index :: after →
        let start := leave env division chunk before (generator, host)
        let outcome := run env division index chunk start.1 start.2
        (runs env division chunk generator host indices)[before.length]? = some outcome ∧
          (∀ failure, outcome.result = .error failure →
            FailsExcused env division index chunk start.1 start.2 failure) ∧
          (division = .zero →
            (∀ name values, env.get? name = some (.sequence values) → index < values.size) →
            ∃ bindings, outcome.result = .ok bindings) := by
  refine ⟨length_runs env division chunk generator host indices, ?_⟩
  rintro before index after rfl start outcome
  refine ⟨getElem?_runs env division chunk (generator, host) before index after, ?_, ?_⟩
  · intro failure hf
    exact failsExcused_of_compile h henv hf
  · rintro rfl hlong
    exact succeeds_of_long h henv hlong

/-- A division by an input that is zero at one index and missing at the next. -/
theorem runs_fail_excused_division :
    let env : Environment Unit := ⟨⟨[("s", .sequence #[0])]⟩⟩
    let chunk : Chunk :=
      ⟨[.constant 1, .get "s", .binary .divide, .pop], [1, 1, 1, 1], 2⟩
    compile ["s"] "1 / s;" = .ok chunk ∧ Provides env ["s"] ∧
      (runs env .fail chunk (.ofSeed 0) () [0, 1]).map Machine.Outcome.result =
        [.error ⟨.divisionByZero, 1⟩, .error ⟨.indexOutOfBounds ⟨"s", 1, 1⟩, 1⟩] ∧
      FailsExcused env .fail 0 chunk (.ofSeed 0) () ⟨.divisionByZero, 1⟩ ∧
      FailsExcused env .fail 1 chunk (.ofSeed 0) () ⟨.indexOutOfBounds ⟨"s", 1, 1⟩, 1⟩ := by
  intro env chunk
  have hcompile : compile ["s"] "1 / s;" = .ok chunk := by with_unfolding_all rfl
  have hprovides : Provides env ["s"] := by
    intro n hn _
    rw [List.mem_singleton.mp hn]
    rfl
  obtain ⟨-, hruns⟩ := @runs_fail_excused _ env .fail _ _ _ hcompile hprovides (.ofSeed 0) () [0, 1]
  obtain ⟨-, hfirst, -⟩ := hruns [] 0 [1] rfl
  obtain ⟨-, hsecond, -⟩ := hruns [0] 1 [] rfl
  exact ⟨hcompile, hprovides, rfl, hfirst _ rfl, hsecond _ rfl⟩

end Pixelwise
