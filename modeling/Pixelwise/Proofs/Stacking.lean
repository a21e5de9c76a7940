/-
The stack of compiled code.

The code of an expression leaves one value more than it found, and never
takes off one that it did not put there; the code of a statement drops that
value again.  So the depths that can be read off compiled code are those of
the stack when it is run, and the greatest of them is the room that the
chunk asks for.

Main statement: `stack_exact`.
-/
import Pixelwise.Proofs.Executing
import Pixelwise.Proofs.Language

namespace Pixelwise.Machine

variable {σ : Type} {env : Environment σ} {division : DivisionPolicy} {index : Nat}

/-! ## What is executed -/

/-- An instruction that succeeds does to the stack what its effect says, and
found there whatever it took off. -/
theorem length_of_execute {s t : State σ} {i : Instruction}
    (h : execute env division index s i = .ok t) :
    i.effect.pops ≤ s.stack.length ∧ t.stack.length = i.effect.apply s.stack.length := by
  obtain ⟨taken, put, below, hpops, hpushes, hbefore, hafter⟩ := exchange_of_execute h
  rw [hbefore, hafter, List.length_append, List.length_append, hpops, hpushes, StackEffect.apply]
  omega

theorem length_of_executeAll {s t : State σ} {code : List Instruction}
    (h : executeAll env division index s code = .ok t) :
    t.stack.length = depthFrom s.stack.length code := by
  induction code generalizing s with
  | nil =>
      cases h
      rfl
  | cons i rest ih =>
      rw [executeAll, List.foldlM_cons] at h
      obtain ⟨u, hu, h⟩ := exists_of_bind h
      rw [ih h, depthFrom_cons, (length_of_execute hu).2]

end Pixelwise.Machine

namespace Pixelwise

open Syntax Machine

/-- The depths of code from the empty stack: those that are followed while it
is emitted are the sums of the effects, an instruction takes off no more than
there is, nothing is left behind a value that was dropped or at the end, and
`room` is the greatest depth. -/
structure Stacks (code : List Instruction) (room : Nat) : Prop where
  sums : ∀ n, (depth (code.take n) : Int) = balance (code.take n)
  enough : ∀ n i, code[n]? = some i → i.effect.pops ≤ depth (code.take n)
  dropped : ∀ n, code[n]? = some .pop → depth (code.take (n + 1)) = 0
  ends : depth code = 0
  within : ∀ n, depth (code.take n) ≤ room
  reached : ∃ n, depth (code.take n) = room

theorem stacks_program (program : List Statement) :
    Stacks ((code program).map Prod.fst) (peak ((code program).map Prod.fst)) := by
  obtain ⟨hfed, hends⟩ := fed_program program
  refine ⟨fun n => ?_, fun n i hi => (hfed.at_offset hi).1, fun n hn => ?_, hends,
    depthFrom_take_le 0 _, ?_⟩
  · simpa [depth] using (hfed.take n).depthFrom_eq
  · have hone := (hfed.at_offset hn).2 rfl
    rw [depth, List.take_add_one, hn, depthFrom_append, hone]
    rfl
  · obtain ⟨n, -, hn⟩ := exists_depthFrom_take 0 ((code program).map Prod.fst)
    exact ⟨n, hn⟩

/-- The stack of a run of code is as deep before every instruction as the
code says, so never deeper than `room`; and a run that completes gets that
deep. -/
structure InStep {σ : Type} (env : Environment σ) (division : DivisionPolicy) (index : Nat)
    (chunk : Chunk) (generator : Generator) (host : σ) : Prop where
  follows : ∀ n t,
    executeAll env division index ⟨[], .empty, generator, host⟩ (chunk.instructions.take n) =
      .ok t → t.stack.length = depth (chunk.instructions.take n) ∧
        t.stack.length ≤ chunk.maxStackSize
  reached : ∀ bindings, (run env division index chunk generator host).result = .ok bindings →
    ∃ n t,
      executeAll env division index ⟨[], .empty, generator, host⟩ (chunk.instructions.take n) =
        .ok t ∧ t.stack.length = chunk.maxStackSize

/-- The depths that the compiler follows are exact: they are the sums of the
effects of the code, and the depths of the stack in every run of it. -/
theorem stack_exact {inputs : List String} {source : String} {chunk : Chunk}
    (h : compile inputs source = .ok chunk) :
    Stacks chunk.instructions chunk.maxStackSize ∧
      ∀ (σ : Type) (env : Environment σ) (division : DivisionPolicy) (index : Nat)
        (generator : Generator) (host : σ),
        InStep env division index chunk generator host := by
  obtain ⟨program, -, -, rfl⟩ := Compiler.compileAfter_eq_ok_iff.mp h
  have hstacks := stacks_program program
  refine ⟨hstacks, fun σ env division index generator host => ⟨fun n t ht => ?_, fun b hb => ?_⟩⟩
  · have hlength := length_of_executeAll ht
    exact ⟨hlength, hlength ▸ hstacks.within n⟩
  · obtain ⟨n, hn⟩ := hstacks.reached
    obtain ⟨t, ht⟩ := exists_of_runFrom hb
    obtain ⟨u, hu⟩ := executeAll_take ht n
    exact ⟨n, u, hu, (length_of_executeAll hu).trans hn⟩

/-- A call whose second argument is a product that holds another call. -/
theorem stack_exact_nested :
    let chunk : Chunk :=
      ⟨[.get "max", .constant 1, .constant 2, .get "rand", .call 0, .binary .multiply, .call 2,
        .set "a", .get "a", .pop], [1, 1, 1, 1, 1, 1, 1, 1, 1, 1], 4⟩
    compile [] "a = max(1, 2 * rand());" = .ok chunk ∧ Stacks chunk.instructions 4 ∧
      ∀ (σ : Type) (env : Environment σ) (division : DivisionPolicy) (index : Nat)
        (generator : Generator) (host : σ),
        InStep env division index chunk generator host := by
  intro chunk
  have hcompile : compile [] "a = max(1, 2 * rand());" = .ok chunk := by with_unfolding_all rfl
  exact ⟨hcompile, stack_exact hcompile⟩

end Pixelwise
