/-
Runs, taken apart and put together.

A chunk keeps its instructions and their lines in two lists.  For a chunk
that was made of instructions paired with lines, a run of the machine is a
run over the pairs (`run_ofEmitted`), and such a run can be taken apart
wherever the code can.

One machine runs a chunk any number of times.  Its stack and its bindings
start afresh each time, so all that a run leaves to the next one are the
generator and the host (`runs`).
-/
import Pixelwise.Machine.Execute

namespace Pixelwise.Machine

variable {σ : Type} (env : Environment σ) (division : DivisionPolicy) (index : Nat)

/-- Run instructions that are paired with their lines. -/
def runLined (s : State σ) : List (Instruction × Nat) → Outcome σ
  | [] => ⟨.ok s.bindings, s.generator, s.host⟩
  | (i, line) :: rest =>
    match execute env division index s i with
    | .ok t => runLined t rest
    | .error fault => ⟨.error ⟨fault, line⟩, s.generator, s.host⟩

/-- Execute instructions in order; their state after the last one, or the
first fault. -/
def executeAll (s : State σ) (code : List Instruction) : Except Fault (State σ) :=
  code.foldlM (execute env division index) s

/-- Code that is run from `s` fails at offset `k`: it comes to the instruction
there in the state `t`, and the instruction meets a fault. -/
def FailsAt (s : State σ) (code : List Instruction) (k : Nat) (t : State σ) (fault : Fault) :
    Prop :=
  ∃ i, code[k]? = some i ∧ executeAll env division index s (code.take k) = .ok t ∧
    execute env division index t i = .error fault

/-- The outcomes of running a chunk at one index after another. -/
def runs (chunk : Chunk) (generator : Generator) (host : σ) : List Nat → List (Outcome σ)
  | [] => []
  | index :: rest =>
    let outcome := run env division index chunk generator host
    outcome :: runs chunk outcome.generator outcome.host rest

/-- The generator and the host that such runs leave. -/
def leave (chunk : Chunk) : List Nat → Generator × σ → Generator × σ
  | [], left => left
  | index :: rest, (generator, host) =>
    let outcome := run env division index chunk generator host
    leave chunk rest (outcome.generator, outcome.host)

theorem length_runs (chunk : Chunk) (generator : Generator) (host : σ) (indices : List Nat) :
    (runs env division chunk generator host indices).length = indices.length := by
  induction indices generalizing generator host with
  | nil => rfl
  | cons index rest ih => exact congrArg (· + 1) (ih _ _)

/-- Each run begins with what those before it left. -/
theorem getElem?_runs (chunk : Chunk) (start : Generator × σ) (before : List Nat) (index : Nat)
    (after : List Nat) :
    (runs env division chunk start.1 start.2 (before ++ index :: after))[before.length]? =
      some (run env division index chunk (leave env division chunk before start).1
        (leave env division chunk before start).2) := by
  induction before generalizing start with
  | nil => rfl
  | cons first rest ih =>
      exact ih ((run env division first chunk start.1 start.2).generator,
        (run env division first chunk start.1 start.2).host)

variable {env division index}

theorem executeAll_append (s : State σ) (xs ys : List Instruction) :
    executeAll env division index s (xs ++ ys) =
      executeAll env division index s xs >>= fun t => executeAll env division index t ys :=
  List.foldlM_append

theorem runFrom_eq_runLined {chunk : Chunk} {code : List (Instruction × Nat)} {offset : Nat}
    (h : ∀ k, (code[k]?.map Prod.snd).getD 0 = chunk.lineAt (offset + k)) (s : State σ) :
    runFrom env division index chunk offset s (code.map Prod.fst) =
      runLined env division index s code := by
  induction code generalizing offset s with
  | nil => rfl
  | cons p rest ih =>
      obtain ⟨i, line⟩ := p
      have hline : line = chunk.lineAt offset := by simpa using h 0
      have hrest : ∀ k, (rest[k]?.map Prod.snd).getD 0 = chunk.lineAt (offset + 1 + k) := by
        intro k
        have := h (k + 1)
        rwa [List.getElem?_cons_succ, ← Nat.add_assoc, Nat.add_right_comm] at this
      simp only [List.map_cons, runFrom, runLined, hline]
      cases execute env division index s i with
      | ok t => exact ih hrest t
      | error fault => rfl

/-- Numbers come off a stack in the order in which they were put there. -/
theorem popNumbers_map (ys : List Float) (stack : List Value) :
    popNumbers ys.length (ys.map Value.number ++ stack) = .ok (ys.reverse, stack) := by
  induction ys with
  | nil => rfl
  | cons y ys ih =>
      rw [List.length_cons, List.map_cons, List.cons_append, popNumbers, popNumber,
        List.reverse_cons]
      simp only [bind, Except.bind, ih]
      rfl

/-- A chunk runs as the pairs that it was made of. -/
theorem run_ofEmitted (code : List (Instruction × Nat)) (generator : Generator) (host : σ) :
    run env division index (Chunk.ofEmitted code) generator host =
      runLined env division index ⟨[], .empty, generator, host⟩ code := by
  refine runFrom_eq_runLined (fun k => ?_) _
  simp [Chunk.lineAt, Chunk.ofEmitted]

end Pixelwise.Machine
