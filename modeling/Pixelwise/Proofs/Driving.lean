/-
One stream, however it is divided.

An evaluation begins with a cleared stack and without bindings, so the only
thing that one evaluation leaves to the next is the generator, and the host.
A failed evaluation leaves them as its last instruction that succeeded left
them.  The ways to drive a chunk therefore come to the same: processors that
hand their generator on (`Processor.handOn`) are what the others are measured
against.

Main statement: `program_session_agree`, that a program and a session of it
agree up to the first failure, and that all drives draw the numbers of the
seeded stream in order.
-/
import Pixelwise.Engine.Drive
import Pixelwise.Random.Stream
import Pixelwise.Proofs.Stacking

namespace Pixelwise

open Generator (Drawn)

/-- Of all functions only `rand` draws. -/
theorem Builtin.drawn_of_apply {f : Builtin} {args : List Float} {g k : Generator} {x : Float}
    (h : f.apply args g = some (x, k)) :
    (f = .rand ∧ args = [] ∧ g.next = (x, k)) ∨ (f ≠ .rand ∧ k = g) := by
  by_cases hf : f = .rand
  · subst hf
    cases args with
    | nil => exact Or.inl ⟨rfl, rfl, Option.some.inj h⟩
    | cons y ys => cases h
  · refine Or.inr ⟨hf, ?_⟩
    unfold apply at h
    split at h <;> simp_all

namespace Machine

variable {σ : Type} {env : Environment σ} {division : DivisionPolicy} {index : Nat}

/-! ## The numbers drawn by code -/

/-- A call draws if it is one of `rand`, and then nothing is on top of the
function. -/
theorem drawn_of_call {argc : Nat} {s t : State σ} (h : call argc s = .ok t) :
    Drawn (drawn (.call argc) s t) s.generator t.generator := by
  obtain ⟨args, f, rest, x, k, -, hstack, happly, rfl⟩ := exists_of_call h
  rcases Builtin.drawn_of_apply happly with ⟨rfl, rfl, hnext⟩ | ⟨hf, rfl⟩
  · have hdrawn := Drawn.next s.generator
    rw [hnext] at hdrawn
    simpa [drawn, hstack] using hdrawn
  · -- what is on top is the last argument, or else the function itself
    have hnone : drawn (.call argc) s { s with stack := .number x :: rest } = [] := by
      obtain rfl | ⟨init, last, rfl⟩ := List.eq_nil_or_concat args
      · simp [drawn, hstack, hf]
      · simp [drawn, hstack]
    rw [hnone]
    exact .nil _

/-- An instruction that succeeds draws what `drawn` says. -/
theorem drawn_of_execute {s t : State σ} {i : Instruction}
    (h : execute env division index s i = .ok t) :
    Drawn (drawn i s t) s.generator t.generator := by
  cases i with
  | constant value =>
      cases h
      exact .nil _
  | get name =>
      obtain ⟨p, -, h⟩ := exists_of_bind h
      cases h
      exact .nil _
  | set name =>
      obtain ⟨p, -, h⟩ := exists_of_bind h
      cases h
      exact .nil _
  | call argc => exact drawn_of_call h
  | pop =>
      obtain ⟨p, -, h⟩ := exists_of_bind h
      cases h
      exact .nil _
  | unary op =>
      obtain ⟨p, -, h⟩ := exists_of_bind h
      cases h
      exact .nil _
  | binary op =>
      obtain ⟨p, -, h⟩ := exists_of_bind h
      obtain ⟨q, -, h⟩ := exists_of_bind h
      obtain ⟨x, -, h⟩ := exists_of_bind h
      cases h
      exact .nil _

/-- A run draws the next numbers of its generator in order, whether it fails
or not. -/
theorem draws_drawn (s : State σ) (code : List Instruction) :
    Drawn (draws env division index s code) s.generator
      (stopped env division index s code).generator := by
  induction code generalizing s with
  | nil => exact .nil _
  | cons i rest ih =>
      rw [draws, stopped]
      cases h : execute env division index s i with
      | ok t => exact (drawn_of_execute h).append (ih t)
      | error fault => exact .nil _

/-- A run leaves the generator and the host as they are where it stops. -/
theorem stopped_eq (env : Environment σ) (division : DivisionPolicy) (index : Nat)
    (chunk : Chunk) (offset : Nat) (s : State σ) (code : List Instruction) :
    (stopped env division index s code).generator =
        (runFrom env division index chunk offset s code).generator ∧
      (stopped env division index s code).host =
        (runFrom env division index chunk offset s code).host := by
  induction code generalizing offset s with
  | nil => exact ⟨rfl, rfl⟩
  | cons i rest ih =>
      rw [stopped, runFrom]
      cases execute env division index s i with
      | ok t => exact ih (offset + 1) t
      | error fault => exact ⟨rfl, rfl⟩

/-! ## One evaluation -/

namespace Processor

/-- The processor runs this chunk and draws from this generator; what is left
on its stack and among its bindings does not matter. -/
structure Like (env : Environment σ) (division : DivisionPolicy) (chunk : Chunk)
    (generator : Generator) (p : Processor σ) : Prop where
  environment : p.environment = env
  division : p.division = division
  chunk : p.chunk = chunk
  generator : p.generator = generator

variable {chunk : Chunk} {generator : Generator} {p : Processor σ}

/-- A processor that was used before evaluates as a new one. -/
theorem Like.step (h : Like env division chunk generator p) (index : Nat) (host : σ) :
    (step index (p, host)).1 = (handOn env division chunk index (generator, host)).1 ∧
      (step index (p, host)).2.2 = (handOn env division chunk index (generator, host)).2.2 ∧
      Like env division chunk (handOn env division chunk index (generator, host)).2.1
        (step index (p, host)).2.1 := by
  obtain ⟨rfl, rfl, rfl, rfl⟩ := h
  exact ⟨rfl, rfl, rfl, rfl, rfl, rfl⟩

/-- To evaluate with a processor is to run its chunk, and to hand on what the
run leaves. -/
theorem handOn_eq (env : Environment σ) (division : DivisionPolicy) (chunk : Chunk) (index : Nat)
    (generator : Generator) (host : σ) :
    handOn env division chunk index (generator, host) =
      (⟨(run env division index chunk generator host).result,
          Machine.draws env division index ⟨[], .empty, generator, host⟩ chunk.instructions⟩,
        (run env division index chunk generator host).generator,
        (run env division index chunk generator host).host) := by
  obtain ⟨hgenerator, hhost⟩ :=
    stopped_eq env division index chunk 0 ⟨[], .empty, generator, host⟩ chunk.instructions
  rw [run, ← hgenerator, ← hhost]
  rfl

theorem handOn_drawn (env : Environment σ) (division : DivisionPolicy) (chunk : Chunk)
    (index : Nat) (generator : Generator) (host : σ) :
    Drawn (handOn env division chunk index (generator, host)).1.drawn generator
      (handOn env division chunk index (generator, host)).2.1 :=
  draws_drawn ⟨[], .empty, generator, host⟩ chunk.instructions

end Processor

end Machine

/-! ## Drives -/

section

variable {ι α β S T : Type}

/-- Where each step of one drive is a step of another, so are the drives. -/
theorem drive_map {step : ι → S → Evaluation α × S} {step' : ι → T → Evaluation β × T}
    {f : Evaluation α → Evaluation β} {R : S → T → Prop}
    (h : ∀ i s t, R s t → (step' i t).1 = f (step i s).1 ∧ R (step i s).2 (step' i t).2)
    (is : List ι) {s : S} {t : T} (hr : R s t) :
    (drive step' is t).1 = (drive step is s).1.map f ∧
      R (drive step is s).2 (drive step' is t).2 := by
  induction is generalizing s t with
  | nil => exact ⟨rfl, hr⟩
  | cons i rest ih =>
      obtain ⟨hfirst, hnext⟩ := h i s t hr
      obtain ⟨hothers, hlast⟩ := ih hnext
      exact ⟨by simp only [drive, List.map_cons, hfirst, hothers], hlast⟩

theorem length_drive (step : ι → S → Evaluation α × S) (is : List ι) (s : S) :
    (drive step is s).1.length = is.length := by
  induction is generalizing s with
  | nil => rfl
  | cons i rest ih => simp [drive, ih]

end

variable {σ : Type}

open Machine Processor

/-- Processors that hand their generator on draw its numbers in order. -/
theorem drive_drawn (env : Environment σ) (division : DivisionPolicy) (chunk : Chunk)
    (indices : List Nat) (generator : Generator) (host : σ) :
    Drawn ((drive (handOn env division chunk) indices (generator, host)).1.flatMap (·.drawn))
      generator (drive (handOn env division chunk) indices (generator, host)).2.1 := by
  induction indices generalizing generator host with
  | nil => exact .nil _
  | cons index rest ih =>
      simp only [drive, List.flatMap_cons]
      exact (handOn_drawn env division chunk index generator host).append (ih _ _)

/-- One processor, used again and again, comes to what processors that hand
their generator on come to. -/
theorem drive_reused (env : Environment σ) (division : DivisionPolicy) (chunk : Chunk)
    (indices : List Nat) (generator : Generator) (host : σ) :
    (drive step indices (ofGenerator env division chunk generator, host)).1 =
        (drive (handOn env division chunk) indices (generator, host)).1 ∧
      (drive step indices (ofGenerator env division chunk generator, host)).2.1.generator =
        (drive (handOn env division chunk) indices (generator, host)).2.1 := by
  have hstep : ∀ (index : Nat) (s : Generator × σ) (t : Processor σ × σ),
      Like env division chunk s.1 t.1 ∧ t.2 = s.2 →
      (step index t).1 = id (handOn env division chunk index s).1 ∧
        (Like env division chunk (handOn env division chunk index s).2.1 (step index t).2.1 ∧
          (step index t).2.2 = (handOn env division chunk index s).2.2) := by
    rintro index ⟨g, host⟩ ⟨p, _⟩ ⟨hlike, rfl⟩
    obtain ⟨hanswer, hhost, hnext⟩ := Like.step hlike index _
    exact ⟨hanswer, hnext, hhost⟩
  obtain ⟨hall, hlast, -⟩ := drive_map (R := fun s t => Like env division chunk s.1 t.1 ∧ t.2 = s.2)
    hstep indices (s := (generator, host)) (t := (ofGenerator env division chunk generator, host))
    ⟨⟨rfl, rfl, rfl, rfl⟩, rfl⟩
  exact ⟨by simpa using hall, hlast.generator⟩

/-- What an evaluation comes to for the host of a program. -/
def Program.report (program : Program σ) (e : Evaluation (Except Failure Bindings)) :
    Evaluation (Except Error Outputs) :=
  ⟨program.outputs e.answer, e.drawn⟩

/-- A program is evaluated by processors that hand its generator on. -/
theorem drive_program (program : Program σ) (indices : List Nat) (host : σ) :
    (drive Program.step indices (program, host)).1 =
        (drive (handOn program.engine.environment program.engine.division program.chunk) indices
          (program.generator, host)).1.map program.report ∧
      (drive Program.step indices (program, host)).2.1.generator =
        (drive (handOn program.engine.environment program.engine.division program.chunk) indices
          (program.generator, host)).2.1 := by
  have hstep : ∀ (index : Nat) (s : Generator × σ) (t : Program σ × σ),
      t = ({ program with generator := s.1 }, s.2) →
      (Program.step index t).1 = program.report
          (handOn program.engine.environment program.engine.division program.chunk index s).1 ∧
        (Program.step index t).2 =
          ({ program with generator := (handOn program.engine.environment
              program.engine.division program.chunk index s).2.1 },
            (handOn program.engine.environment program.engine.division program.chunk index
              s).2.2) := by
    rintro index ⟨g, host⟩ t rfl
    rw [handOn_eq]
    exact ⟨rfl, rfl⟩
  obtain ⟨hall, hlast⟩ := drive_map hstep indices
    (s := (program.generator, host)) (t := (program, host)) rfl
  exact ⟨hall, by rw [hlast]⟩

/-! ## Sessions -/

/-- A session that has ended refuses everything. -/
theorem drive_halted (session : Session σ) (h : session.halted = true) (indices : List Nat)
    (host : σ) :
    (drive Session.step indices (session, host)).1 =
      List.replicate indices.length ⟨.error .halted, []⟩ := by
  induction indices with
  | nil => rfl
  | cons index rest ih =>
      have hstep : Session.step index (session, host) =
          (⟨.error .halted, []⟩, session, host) := by
        simp [Session.step, Session.evaluate, h]
      simp only [drive, hstep, ih, List.length_cons, List.replicate_succ]

/-- A session that has not ended does what the program does, and ends if
that fails. -/
theorem step_session (program : Program σ) (generator : Generator) (index : Nat) (host : σ) :
    Session.step index (⟨program, generator, false⟩, host) =
      (⟨program.outputs (program.run generator index host).result,
          program.draws generator index host⟩,
        ⟨program, (program.run generator index host).generator,
          !(program.run generator index host).result.isOk⟩,
        (program.run generator index host).host) := by
  rw [Session.step, Session.evaluate]
  generalize program.run generator index host = outcome
  obtain ⟨result, generator, host⟩ := outcome
  cases result <;> rfl

/-- A session evaluates as its program does, up to the first failure. -/
theorem drive_session (program : Program σ) (generator : Generator) (indices : List Nat)
    (host : σ) :
    (drive Session.step indices (⟨program, generator, false⟩, host)).1 =
      upToFailure (drive Program.step indices ({ program with generator }, host)).1 ++
        List.replicate (indices.length - (upToFailure
          (drive Program.step indices ({ program with generator }, host)).1).length)
          ⟨.error .halted, []⟩ := by
  induction indices generalizing generator host with
  | nil => rfl
  | cons index rest ih =>
      have hprogram : Program.step index ({ program with generator }, host) =
          (⟨program.outputs (program.run generator index host).result,
              program.draws generator index host⟩,
            { program with generator := (program.run generator index host).generator },
            (program.run generator index host).host) := rfl
      simp only [drive, hprogram, step_session]
      cases h : (program.run generator index host).result with
      | ok bindings =>
          simp only [Program.outputs, upToFailure, Except.isOk, Except.toBool, Bool.not_true]
          rw [ih]
          simp
      | error failure =>
          simp only [Program.outputs, upToFailure, Except.isOk, Except.toBool, Bool.not_false]
          rw [drive_halted _ rfl]
          simp

/-! ## Programs that compiled -/

/-- However a program that compiled is evaluated, its evaluations draw one
stream, that of the seed.

A session answers as the program does up to the first failure, and from then
on refuses.  The program goes on: each of its evaluations takes up the
generator where the draws before it left it, those of failed evaluations
included, as processors do that hand their generator on, or one processor
that is used again and again.  The numbers drawn over its whole life are the
first ones of the stream, in order. -/
theorem program_session_agree {engine : Engine σ} {source : String} {program : Program σ}
    (h : engine.compile source = .ok program) (host : σ) (indices : List Nat) :
    let seeded := Generator.ofSeed engine.seed
    let life := drive Program.step indices (program, host)
    let session := drive Session.step indices (program.session, host)
    let handed := drive (handOn engine.environment engine.division program.chunk) indices
      (seeded, host)
    let reused := drive step indices
      (ofGenerator engine.environment engine.division program.chunk seeded, host)
    session.1 = upToFailure life.1 ++
        List.replicate (indices.length - (upToFailure life.1).length) ⟨.error .halted, []⟩ ∧
      life.1 = handed.1.map program.report ∧ life.1.length = indices.length ∧
      reused.1 = handed.1 ∧
      Drawn (life.1.flatMap (·.drawn)) seeded life.2.1.generator ∧
      Drawn (handed.1.flatMap (·.drawn)) seeded handed.2.1 ∧
      Drawn (reused.1.flatMap (·.drawn)) seeded reused.2.1.generator := by
  intro seeded life session handed reused
  obtain ⟨hengine, hseeded⟩ : program.engine = engine ∧ program.generator = seeded := by
    rw [Engine.compile] at h
    split at h
    · cases h
      exact ⟨rfl, rfl⟩
    · cases h
  subst hengine
  obtain ⟨hlife, hgenerator⟩ := drive_program program indices host
  rw [hseeded] at hlife hgenerator
  obtain ⟨hreused, hlast⟩ := drive_reused program.engine.environment program.engine.division
    program.chunk indices seeded host
  have hdrawn := drive_drawn program.engine.environment program.engine.division program.chunk
    indices seeded host
  have hsame : life.1.flatMap (·.drawn) = handed.1.flatMap (·.drawn) := by
    rw [hlife, List.flatMap_map]
    rfl
  refine ⟨?_, hlife, length_drive _ _ _, hreused, ?_, hdrawn, ?_⟩
  · have hsession := drive_session program seeded indices host
    have hfresh : ({ program with generator := seeded } : Program σ) = program := by
      rw [← hseeded]
    rwa [hfresh] at hsession
  · rw [hsame, hgenerator]
    exact hdrawn
  · rw [hreused, hlast]
    exact hdrawn

/-- A number is drawn before the read that fails, and the evaluation after
it takes up the stream behind that number. -/
theorem program_session_agree_failing :
    let engine : Engine Unit := ⟨⟨⟨[("s", .sequence #[1])]⟩⟩, .fail, 7, .pixel⟩
    ∃ program, engine.compile "rand()+s;" = .ok program ∧
      let life := drive Program.step [0, 1, 0] (program, ())
      (life.1.flatMap (·.drawn)).length = 3 ∧
        (life.1.map (·.answer.isOk)) = [true, false, true] ∧
        (drive Session.step [0, 1, 0] (program.session, ())).1 =
          upToFailure life.1 ++ [⟨.error .halted, []⟩] ∧
        Drawn (life.1.flatMap (·.drawn)) (.ofSeed 7) life.2.1.generator := by
  intro engine
  let chunk : Chunk :=
    ⟨[.get "rand", .call 0, .get "s", .binary .add, .pop], [1, 1, 1, 1, 1], 2⟩
  have hchunk : compile engine.environment.names "rand()+s;" = .ok chunk := by
    with_unfolding_all rfl
  have h : engine.compile "rand()+s;" = .ok ⟨engine, chunk, .ofSeed 7⟩ := by
    rw [Engine.compile, hchunk]
  obtain ⟨hsession, -, -, -, hdrawn, -⟩ := program_session_agree h () [0, 1, 0]
  exact ⟨_, h, rfl, rfl, hsession, hdrawn⟩

end Pixelwise
