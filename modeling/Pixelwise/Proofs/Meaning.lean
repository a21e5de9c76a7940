/-
What compiled programs mean.

A source that the engine accepts is one program, and a run of its chunk is
the evaluation of that program: the same bindings or the same first failure,
and the same draws and reads on the way.
-/
import Pixelwise.Engine.Basic
import Pixelwise.NameTable.Order
import Pixelwise.Proofs.Language
import Pixelwise.Proofs.Simulation

namespace Pixelwise

open Syntax

variable {σ : Type}

/-- What the compiler allows, the machine finds. -/
theorem Syntax.resolved_of_diagnose {env : Environment σ} {ms : List Mention}
    (h : diagnose env.names [] ms = []) : ∀ m ∈ ms, Resolved env m := by
  intro m hm
  obtain ⟨before, after, hms⟩ := List.append_of_mem hm
  have hallowed := diagnose_eq_nil_iff.mp h before m after hms
  cases m with
  | target t =>
      refine ⟨hallowed.1, ?_⟩
      have hn := hallowed.2
      rw [Environment.names, NameTable.mem_names_iff] at hn
      simpa [Environment.get?] using hn
  | read t => exact hallowed.1
  | opened t => exact hallowed
  | assigned t | closed t argc => trivial

/-- The chunk of an accepted source runs as the one program that the source
is: whatever the policy, the index, the generator and the host are, the
machine and the evaluation of the tree come to the same. -/
theorem run_eq_evaluate {engine : Engine σ} {source : String} {program : Program σ}
    (h : engine.compile source = .ok program) :
    ∃ tree, DerivesProgram (Token.scan source) tree ∧
      (∀ other, DerivesProgram (Token.scan source) other → other = tree) ∧
      ∀ (division : DivisionPolicy) (index : Nat) (generator : Generator) (host : σ),
        Machine.run engine.environment division index program.chunk generator host =
          evaluate engine.environment division index tree generator host := by
  rw [Engine.compile] at h
  split at h
  · rename_i chunk hchunk
    cases h
    obtain ⟨tree, htree, hnames, rfl⟩ := Compiler.compileAfter_eq_ok_iff.mp hchunk
    exact ⟨tree, htree, fun other ho => ho.unique htree, fun division index generator host =>
      run_code (resolved_of_diagnose hnames) generator host⟩
  · cases h

/-- A remainder by a value that was read, stored and compared. -/
theorem run_eq_evaluate_remainder :
    let engine : Engine Unit := ⟨⟨⟨[("s", .sequence #[2])]⟩⟩, .fail, 7, .pixel⟩
    let source := "x = s != 1;\ny = 5 % x;"
    ∃ program, engine.compile source = .ok program ∧
      ∃ tree, DerivesProgram (Token.scan source) tree ∧
        (∀ other, DerivesProgram (Token.scan source) other → other = tree) ∧
        ∀ (division : DivisionPolicy) (index : Nat) (generator : Generator) (host : Unit),
          Machine.run engine.environment division index program.chunk generator host =
            evaluate engine.environment division index tree generator host := by
  intro engine source
  have hok : (engine.compile source).isOk = true := by decide +kernel
  cases h : engine.compile source with
  | ok program => exact ⟨program, rfl, run_eq_evaluate h⟩
  | error e =>
      rw [h] at hok
      cases hok

end Pixelwise
