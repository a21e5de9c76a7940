/-
Invoking — code of any kind is run safely.

Chunks can be made by hand, with any instructions in any order.  A run of one
still ends after its last instruction or at the first that fails.  No function
reads an argument that it was not handed: a call that invokes a function has
compared the numbers of arguments before (`watchCall_eq`), and a function reads
no position that is not below its arity, however many arguments there are
(`invoke_append`).  A processor begins each evaluation afresh, so it makes no
difference what an evaluation that broke off has left on the stack or among
the bindings.

Only a chunk that asks for more room than there can be is not run at all
(`create_of_le`).

Main statement: `evaluate_safely`.
-/
import Mathlib
import Pixelwise.Machine.Invocation
import Pixelwise.Proofs.Conversing

namespace Pixelwise

open Generator (Drawn)

/-! ## Functions -/

namespace Builtin

open Arithmetic

/-- A choice reads its condition and then one of the two others. -/
theorem invoke_choose (condition x y : Float) (more : List Float) (g : Generator) :
    choose.invoke (condition :: x :: y :: more) g =
      .ok (if isTrue condition then x else y, ⟨[0, if isTrue condition then 1 else 2], g⟩) := by
  cases hcondition : isTrue condition <;>
    simp [invoke, body, readAt, hcondition, bind, StateT.bind, Except.bind, StateT.run]

/-- A function finds its result in the arguments that it takes, and never
looks at those behind them. -/
theorem invoke_append {f : Builtin} {args : List Float} (h : args.length = f.arity)
    (more : List Float) (g : Generator) :
    ∃ x usage, f.invoke (args ++ more) g = .ok (x, usage) ∧
      f.apply args g = some (x, usage.generator) ∧ ∀ p ∈ usage.positions, p < f.arity := by
  cases f with
  | rand =>
      obtain rfl := List.eq_nil_of_length_eq_zero h
      exact ⟨_, _, rfl, rfl, by simp⟩
  | atan2 | max | min =>
      obtain ⟨x, y, rfl⟩ := List.length_eq_two.mp h
      exact ⟨_, _, rfl, rfl, by simp [arity]⟩
  | choose =>
      obtain ⟨condition, x, y, rfl⟩ := List.length_eq_three.mp h
      refine ⟨_, _, invoke_choose condition x y more g, rfl, ?_⟩
      simp only [List.mem_cons, List.not_mem_nil, or_false, arity]
      split <;> omega
  | lerp =>
      obtain ⟨weight, x, y, rfl⟩ := List.length_eq_three.mp h
      exact ⟨_, _, rfl, rfl, by simp [arity]⟩
  | _ =>
      obtain ⟨x, rfl⟩ := List.length_eq_one_iff.mp h
      exact ⟨_, _, rfl, rfl, by simp [arity]⟩

/-- With too few arguments a function comes to a position without one. -/
example (g : Generator) : max.invoke [1] g = .error 1 := rfl

end Builtin

namespace Machine

variable {σ : Type} {env : Environment σ} {division : DivisionPolicy} {index : Nat}

/-! ## Invocations -/

/-- A function was handed as many arguments as it takes, in the order in which
they were put on the stack, and read only such as it was handed. -/
structure Invocation.Proper (v : Invocation σ) : Prop where
  count : v.arguments.length = v.function.arity
  order : ∃ below,
    v.state.stack = (v.arguments.map Value.number).reverse ++ .function v.function :: below
  reads : ∀ p ∈ v.positions, p < v.function.arity

/-- The function was invoked by a call that code comes to when it is run from
`s`. -/
def Invocation.MadeBy (env : Environment σ) (division : DivisionPolicy) (index : Nat) (s : State σ)
    (code : List Instruction) (v : Invocation σ) : Prop :=
  ∃ k, code[k]? = some (.call v.arguments.length) ∧
    executeAll env division index s (code.take k) = .ok v.state

/-- The functions that code invokes when it is run from `s`: all of them are
invoked properly, by the calls of the code, and no call that succeeds is
without one. -/
structure Logs (env : Environment σ) (division : DivisionPolicy) (index : Nat) (s : State σ)
    (code : List Instruction) (log : List (Invocation σ)) : Prop where
  proper : ∀ v ∈ log, v.Proper
  made : ∀ v ∈ log, v.MadeBy env division index s code
  all : ∀ k argc t, code[k]? = some (.call argc) →
    executeAll env division index s (code.take (k + 1)) = .ok t →
    ∃ v ∈ log, v.arguments.length = argc ∧
      executeAll env division index s (code.take k) = .ok v.state

theorem popNumbers_eq_map (n : Nat) (stack : List Value) :
    popNumbers n stack = (popEach n stack).map fun p => (p.1.reverse, p.2) := by
  induction n generalizing stack with
  | zero => rfl
  | succ n ih =>
      rw [popNumbers, popEach]
      cases popNumber stack with
      | error fault => rfl
      | ok p =>
          have hrest := ih p.2
          cases heach : popEach n p.2 with
          | error fault =>
              rw [heach] at hrest
              simp only [bind, Except.bind, hrest, heach]
              rfl
          | ok q =>
              rw [heach] at hrest
              simp only [bind, Except.bind, hrest, heach]
              simp [Except.map, pure, Except.pure]

/-- A watched call does what a call does; whatever it invokes is handed what
it takes, and it succeeds only if it invokes something. -/
theorem watchCall_eq (argc : Nat) (s : State σ) :
    ∃ log, watchCall argc s = .ok (call argc s, log) ∧
      (∀ v ∈ log, v.Proper ∧ v.state = s ∧ v.arguments.length = argc) ∧
      ∀ t, call argc s = .ok t → log ≠ [] := by
  have hnumbers := popNumbers_eq_map argc s.stack
  rw [watchCall, call]
  cases heach : popEach argc s.stack with
  | error fault =>
      rw [heach] at hnumbers
      rw [hnumbers]
      exact ⟨[], rfl, by simp, nofun⟩
  | ok p =>
      obtain ⟨args, rest⟩ := p
      rw [heach] at hnumbers
      obtain ⟨hlength, hstack⟩ := eq_of_popNumbers hnumbers
      rw [hnumbers]
      obtain _ | ⟨x | f, below⟩ := rest
      · exact ⟨[], rfl, by simp, nofun⟩
      · exact ⟨[], rfl, by simp, nofun⟩
      by_cases harity : f.arity = argc
      · have hcount : args.reverse.length = f.arity := hlength.trans harity.symm
        obtain ⟨x, usage, hinvoke, happly, hreads⟩ :=
          Builtin.invoke_append hcount [] s.generator
        rw [List.append_nil] at hinvoke
        refine ⟨[⟨s, f, args.reverse, usage.positions⟩], ?_, ?_, by simp⟩
        · simp [popValue, harity, hinvoke, happly, Except.map, bind, Except.bind, pure, Except.pure]
        · rintro v hv
          obtain rfl := List.mem_singleton.mp hv
          exact ⟨⟨hcount, ⟨below, hstack⟩, hreads⟩, rfl, hlength⟩
      · have hnone : f.apply args.reverse s.generator = none := by
          rw [← Option.not_isSome_iff_eq_none, Builtin.isSome_apply]
          exact fun hcount => harity (hcount.symm.trans hlength)
        refine ⟨[], ?_, by simp, ?_⟩
        · simp [popValue, harity, hnone, Except.map, bind, Except.bind]
        · simp [popValue, hnone, Except.map, bind, Except.bind]

theorem watch_eq (env : Environment σ) (division : DivisionPolicy) (index : Nat) (s : State σ)
    (i : Instruction) :
    ∃ log, watch env division index s i = .ok (execute env division index s i, log) ∧
      (∀ v ∈ log, v.Proper ∧ v.state = s ∧ i = .call v.arguments.length) ∧
      ∀ argc t, i = .call argc → execute env division index s i = .ok t → log ≠ [] := by
  cases i with
  | call argc =>
      obtain ⟨log, hwatch, hlog, hsome⟩ := watchCall_eq argc s
      refine ⟨log, hwatch, fun v hv => ?_, fun _ t _ ht => hsome t ht⟩
      obtain ⟨hproper, hstate, hargc⟩ := hlog v hv
      exact ⟨hproper, hstate, by rw [hargc]⟩
  | _ => exact ⟨[], rfl, by simp, nofun⟩

/-- Code whose first instruction fails invokes no more than that does. -/
theorem Logs.of_error {s : State σ} {i : Instruction} {rest : List Instruction} {fault : Fault}
    {first : List (Invocation σ)} (hi : execute env division index s i = .error fault)
    (hfirst : ∀ v ∈ first, v.Proper ∧ v.state = s ∧ i = .call v.arguments.length) :
    Logs env division index s (i :: rest) first where
  proper v hv := (hfirst v hv).1
  made v hv := by
    obtain ⟨-, rfl, rfl⟩ := hfirst v hv
    exact ⟨0, rfl, rfl⟩
  all k argc t _ ht := by
    rw [List.take_succ_cons, executeAll, List.foldlM_cons, hi] at ht
    cases ht

/-- What the first instruction invokes comes before what the others invoke. -/
theorem Logs.cons {s t : State σ} {i : Instruction} {rest : List Instruction}
    {first others : List (Invocation σ)} (hi : execute env division index s i = .ok t)
    (hfirst : ∀ v ∈ first, v.Proper ∧ v.state = s ∧ i = .call v.arguments.length)
    (hsome : ∀ argc t, i = .call argc → execute env division index s i = .ok t → first ≠ [])
    (hothers : Logs env division index t rest others) :
    Logs env division index s (i :: rest) (first ++ others) := by
  have hbehind : ∀ code : List Instruction,
      executeAll env division index s (i :: code) = executeAll env division index t code := by
    intro code
    rw [executeAll, List.foldlM_cons, hi]
    rfl
  refine ⟨fun v hv => ?_, fun v hv => ?_, fun k argc u hk hu => ?_⟩
  · rcases List.mem_append.mp hv with hv | hv
    · exact (hfirst v hv).1
    · exact hothers.proper v hv
  · rcases List.mem_append.mp hv with hv | hv
    · obtain ⟨-, rfl, rfl⟩ := hfirst v hv
      exact ⟨0, rfl, rfl⟩
    · obtain ⟨k, hk, hstate⟩ := hothers.made v hv
      exact ⟨k + 1, hk, by rw [List.take_succ_cons, hbehind, hstate]⟩
  · cases k with
    | zero =>
        obtain rfl := Option.some.inj hk
        obtain ⟨v, hv⟩ := List.exists_mem_of_ne_nil first (hsome argc t rfl hi)
        obtain ⟨-, rfl, hcall⟩ := hfirst v hv
        exact ⟨v, List.mem_append_left _ hv, (Instruction.call.inj hcall).symm, rfl⟩
    | succ k =>
        rw [List.take_succ_cons, hbehind] at hu
        obtain ⟨v, hv, hargc, hstate⟩ := hothers.all k argc u hk hu
        exact ⟨v, List.mem_append_right _ hv, hargc, by rw [List.take_succ_cons, hbehind, hstate]⟩

/-- A watched run comes to the outcome of the run, so no function reads past
its arguments in any code. -/
theorem watchFrom_eq (env : Environment σ) (division : DivisionPolicy) (index : Nat)
    (chunk : Chunk) (offset : Nat) (s : State σ) (code : List Instruction) :
    ∃ log, watchFrom env division index chunk offset s code =
        .ok (runFrom env division index chunk offset s code, log) ∧
      Logs env division index s code log := by
  induction code generalizing offset s with
  | nil => exact ⟨[], rfl, by simp, by simp, nofun⟩
  | cons i rest ih =>
      obtain ⟨first, hwatch, hfirst, hsome⟩ := watch_eq env division index s i
      rw [watchFrom, runFrom, hwatch]
      cases hi : execute env division index s i with
      | error fault => exact ⟨first, rfl, .of_error hi hfirst⟩
      | ok t =>
          obtain ⟨others, hrest, hothers⟩ := ih (offset + 1) t
          refine ⟨first ++ others, ?_, hothers.cons hi hfirst hsome⟩
          simp only [bind, Except.bind, hrest]
          rfl

/-! ## Evaluations -/

namespace Processor

/-- The evaluation stops before offset `k` of the code, in the state `t`:
there the code ends, or else the instruction at the offset fails. -/
structure Stops (p : Processor σ) (index : Nat) (host : σ) (k : Nat) (t : State σ) : Prop where
  executed : executeAll p.environment p.division index (p.cleared host)
    (p.chunk.instructions.take k) = .ok t
  left : (p.evaluate index host).2.1.generator = t.generator ∧ (p.evaluate index host).2.2 = t.host
  result : k = p.chunk.instructions.length ∧ (p.evaluate index host).1 = .ok t.bindings ∨
    ∃ i fault, p.chunk.instructions[k]? = some i ∧
      execute p.environment p.division index t i = .error fault ∧
      (p.evaluate index host).1 = .error ⟨fault, p.chunk.lines[k]?.getD 0⟩

/-- The host does something, and then asks for an evaluation. -/
def attend (turn : (σ → σ) × Nat) (at' : Processor σ × σ) :
    Evaluation (Except Failure Bindings) × Processor σ × σ :=
  step turn.2 (at'.1, turn.1 at'.2)

/-- What an evaluation leaves to later ones: the generator behind the numbers
that it drew, and a host that it has asked for nothing but the computed inputs
that it read.  Whatever is left on the stack and among the bindings, later
evaluations are those of a new processor with that generator. -/
structure Leaves (p : Processor σ) (index : Nat) (host : σ) (next : Processor σ) (after : σ) :
    Prop where
  drawn : Drawn (p.draws index host) p.generator next.generator
  supplied : p.environment.Supplies
    (reads p.environment p.division index (p.cleared host) p.chunk.instructions) host after
  forgets : ∀ stack bindings later host',
    (drive attend later ({ next with stack, bindings }, host')).1 =
      (drive attend later
        (ofGenerator p.environment p.division p.chunk next.generator, host')).1

/-- Processors that run the same chunk and draw from the same generator come
to the same in all evaluations, whatever is left on their stacks. -/
theorem drive_attend_eq {chunk : Chunk} {generator : Generator} {p q : Processor σ}
    (hp : Like env division chunk generator p) (hq : Like env division chunk generator q)
    (later : List ((σ → σ) × Nat)) (host : σ) :
    (drive attend later (p, host)).1 = (drive attend later (q, host)).1 := by
  induction later generalizing generator p q host with
  | nil => rfl
  | cons turn rest ih =>
      obtain ⟨hanswer, hhost, hnext⟩ := hp.step turn.2 (turn.1 host)
      obtain ⟨hanswer', hhost', hnext'⟩ := hq.step turn.2 (turn.1 host)
      rw [drive, drive, attend, attend]
      generalize step turn.2 (p, turn.1 host) = first at hanswer hhost hnext ⊢
      generalize step turn.2 (q, turn.1 host) = first' at hanswer' hhost' hnext' ⊢
      obtain ⟨answer, p', host₁⟩ := first
      obtain ⟨answer', q', host₂⟩ := first'
      obtain rfl : answer = answer' := hanswer.trans hanswer'.symm
      obtain rfl : host₁ = host₂ := hhost.trans hhost'.symm
      exact congrArg (answer :: ·) (ih hnext hnext' host₁)

variable (p : Processor σ) (index : Nat) (host : σ)

theorem exists_stops : ∃ k t, p.Stops index host k t := by
  obtain ⟨k, t, hexecuted, hends⟩ := runFrom_stops p.environment p.division index p.chunk 0
    (p.cleared host) p.chunk.instructions
  obtain ⟨hgenerator, hhost⟩ := stopped_eq p.environment p.division index p.chunk 0
    (p.cleared host) p.chunk.instructions
  rw [Nat.zero_add] at hends
  refine ⟨k, t, hexecuted, ?_, ?_⟩
  · rcases hends with ⟨-, hrun⟩ | ⟨i, fault, -, -, hrun⟩ <;>
      (rw [hrun] at hgenerator hhost; exact ⟨hgenerator, hhost⟩)
  · rcases hends with ⟨hk, hrun⟩ | ⟨i, fault, hi, hfault, hrun⟩
    · exact .inl ⟨hk, congrArg Outcome.result hrun⟩
    · exact .inr ⟨i, fault, hi, hfault, congrArg Outcome.result hrun⟩

theorem isOk_iff : (∃ bindings, (p.evaluate index host).1 = .ok bindings) ↔
    ∃ t, executeAll p.environment p.division index (p.cleared host) p.chunk.instructions =
      .ok t := by
  constructor
  · rintro ⟨bindings, hresult⟩
    exact exists_of_runFrom hresult
  · rintro ⟨t, ht⟩
    exact ⟨t.bindings, congrArg Outcome.result (runFrom_of_executeAll ht)⟩

theorem leaves_evaluate :
    p.Leaves index host (p.evaluate index host).2.1 (p.evaluate index host).2.2 where
  drawn := draws_drawn _ _
  supplied := reads_supplies _ _
  forgets stack bindings later host' := by
    have hnext : Like p.environment p.division p.chunk (p.evaluate index host).2.1.generator
        { (p.evaluate index host).2.1 with stack, bindings } := ⟨rfl, rfl, rfl, rfl⟩
    have hfresh : Like p.environment p.division p.chunk (p.evaluate index host).2.1.generator
        (ofGenerator p.environment p.division p.chunk (p.evaluate index host).2.1.generator) :=
      ⟨rfl, rfl, rfl, rfl⟩
    exact drive_attend_eq hnext hfresh later host'

/-- An evaluation is safe.  It executes a prefix of the code, and succeeds
exactly if that is all of it; otherwise it has the fault of the first
instruction that fails, with its line, or 0 behind the table of lines.  Every
function that is invoked is handed as many arguments as it takes, in order,
and reads no others; every call that succeeds invokes one.  To later
evaluations nothing is left but the generator and what the computed inputs
that were read have done to the host. -/
structure Safe : Prop where
  stops : ∃ k t, p.Stops index host k t
  succeeds : (∃ bindings, (p.evaluate index host).1 = .ok bindings) ↔
    ∃ t, executeAll p.environment p.division index (p.cleared host) p.chunk.instructions = .ok t
  invokes :
    let (result, next, after) := p.evaluate index host
    ∃ log, watchFrom p.environment p.division index p.chunk 0 (p.cleared host)
        p.chunk.instructions = .ok (⟨result, next.generator, after⟩, log) ∧
      Logs p.environment p.division index (p.cleared host) p.chunk.instructions log
  leaves : p.Leaves index host (p.evaluate index host).2.1 (p.evaluate index host).2.2

theorem safe_evaluate : p.Safe index host where
  stops := p.exists_stops index host
  succeeds := p.isOk_iff index host
  invokes := by
    obtain ⟨hgenerator, hhost⟩ := stopped_eq p.environment p.division index p.chunk 0
      (p.cleared host) p.chunk.instructions
    obtain ⟨log, hwatch, hlog⟩ := watchFrom_eq p.environment p.division index p.chunk 0
      (p.cleared host) p.chunk.instructions
    refine ⟨log, ?_, hlog⟩
    rw [hwatch, hgenerator, hhost]
  leaves := p.leaves_evaluate index host

section

variable (environment : Environment σ) (division : DivisionPolicy) {chunk : Chunk}
  (generator : Generator)

theorem create_of_lt (h : chunk.maxStackSize < 2 ^ 59) :
    create environment division chunk generator =
      .ok (ofGenerator environment division chunk generator) := by
  have hroom : chunk.maxStackSize * valueSize < byteLimit := by
    rw [valueSize, byteLimit]
    omega
  rw [create, reserve_of_lt hroom]

theorem create_of_le (h : 2 ^ 59 ≤ chunk.maxStackSize) :
    create environment division chunk generator = .error .capacityOverflow := by
  have hroom : byteLimit ≤ chunk.maxStackSize * valueSize := by
    rw [valueSize, byteLimit]
    omega
  rw [create, reserve_of_le hroom]

/-- Code of a program finds room if there are fewer than 2 ^ 59 instructions in
it. -/
theorem create_of_compile {inputs : List String} {source : String}
    (h : compile inputs source = .ok chunk) (hlength : chunk.instructions.length < 2 ^ 59) :
    create environment division chunk generator =
      .ok (ofGenerator environment division chunk generator) := by
  obtain ⟨program, -, -, rfl⟩ := Compiler.compileAfter_eq_ok_iff.mp h
  have hpeak := peakFrom_le 0 (Chunk.ofEmitted (Syntax.code program)).instructions
  rw [Nat.zero_add] at hpeak
  exact create_of_lt environment division generator (Nat.lt_of_le_of_lt hpeak hlength)

/-- Any chunk is run safely if there can be room for its stack: then there is a
processor for it, and all its evaluations are safe, whatever those before them
have left on its stack, among its bindings and of its generator. -/
theorem evaluate_safely (hroom : chunk.maxStackSize < 2 ^ 59) :
    ∃ fresh : Processor σ, create environment division chunk generator = .ok fresh ∧
      Like environment division chunk generator fresh ∧
      ∀ stack bindings generator' index host,
        Safe { fresh with stack, bindings, generator := generator' } index host := by
  refine ⟨ofGenerator environment division chunk generator, ?_, ⟨rfl, rfl, rfl, rfl⟩, ?_⟩
  · exact create_of_lt environment division generator hroom
  · intro stack bindings generator' index host
    exact safe_evaluate _ index host

end

/-- A call that is handed too few arguments for its function, behind one that
succeeds: the table of lines is too short for it. -/
theorem evaluate_safely_mismatch :
    let chunk : Chunk := ⟨[.get "sqrt", .constant 4, .call 1, .get "max", .constant 1, .call 1],
      [1, 1, 1, 2], 0⟩
    ∃ fresh : Processor Unit, create .empty .zero chunk (.ofSeed 0) = .ok fresh ∧
      (fresh.evaluate 0 ()).1 = .error ⟨.arityMismatch .max 1, 0⟩ ∧ fresh.Safe 0 () := by
  intro chunk
  obtain ⟨fresh, hfresh, hlike, hsafe⟩ :=
    @evaluate_safely Unit .empty .zero chunk (.ofSeed 0) (by decide)
  obtain ⟨environment, division, code, stack, bindings, generator⟩ := fresh
  obtain ⟨rfl, rfl, rfl, rfl⟩ := hlike
  exact ⟨_, hfresh, rfl, hsafe stack bindings _ 0 ()⟩

/-- Code that nothing is wrong with cannot be run if room is asked for 2 ^ 60
values: there is no processor for it. -/
theorem create_overflows :
    let chunk : Chunk := ⟨[.constant 1, .pop], [1, 1], 2 ^ 60⟩
    let start : State Unit := ⟨[], .empty, .ofSeed 0, ()⟩
    (∃ t, executeAll .empty .zero 0 start chunk.instructions = .ok t) ∧
      create .empty .zero chunk start.generator =
        (.error .capacityOverflow : Except Panic (Processor Unit)) ∧
      ¬ ∃ (p : Processor Unit) (bindings : Bindings),
        create .empty .zero chunk start.generator = .ok p ∧ (p.evaluate 0 ()).1 = .ok bindings := by
  intro chunk start
  have hnone : create .empty .zero chunk start.generator =
      (.error .capacityOverflow : Except Panic (Processor Unit)) :=
    create_of_le .empty .zero _ (by decide)
  refine ⟨⟨_, rfl⟩, hnone, ?_⟩
  rintro ⟨p, bindings, hcreate, -⟩
  rw [hnone] at hcreate
  cases hcreate

end Processor

end Machine

end Pixelwise
