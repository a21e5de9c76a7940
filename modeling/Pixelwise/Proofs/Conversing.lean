/-
Conversations and plain loops.

However requests are put together, a session makes the runs of a plain loop
over all their indices, and stops with it at the first failure.  Frames are
no more than their evaluations (`respond_live`), and a session that has ended
makes no runs at all (`converse_halted`), so a conversation can be taken turn
by turn as the loop is.

Main statement: `session_refines_loop`.
-/
import Pixelwise.Engine.Conversation
import Pixelwise.Machine.Supply
import Pixelwise.Proofs.Driving

namespace Pixelwise

open Generator (Drawn)

variable {σ : Type}

namespace Machine

variable {env : Environment σ} {division : DivisionPolicy} {index : Nat}

/-! ## Reads -/

/-- A name stands for a value of the host only if it is read from it. -/
theorem supplies_of_get {s t : State σ} {name : String}
    (h : execute env division index s (.get name) = .ok t) :
    env.Supplies (asked env s (.get name)) s.host t.host := by
  obtain ⟨⟨value, host⟩, hresolve, h⟩ := exists_of_bind h
  cases h
  rw [resolve] at hresolve
  rw [asked]
  cases hf : Builtin.ofName? name with
  | some f =>
      simp only [hf] at hresolve
      cases hresolve
      exact .nil _
  | none =>
      simp only [hf, Environment.resolve] at hresolve
      cases hget : env.get? name with
      | none =>
          simp only [hget] at hresolve
          split at hresolve
          · cases hresolve
            exact .nil _
          · cases hresolve
      | some input =>
          simp only [hget] at hresolve
          cases input with
          | constant x =>
              cases hresolve
              exact .nil _
          | sequence xs =>
              simp only [Input.valueAt?] at hresolve
              cases hx : xs[index]? with
              | none => simp [hx] at hresolve
              | some x =>
                  simp only [hx, Option.map_some] at hresolve
                  cases hresolve
                  exact .nil _
          | computed read =>
              cases hresolve
              exact .cons hget (.nil _)

/-- An instruction takes from the host what it asks for. -/
theorem supplies_of_execute {s t : State σ} {i : Instruction}
    (h : execute env division index s i = .ok t) :
    env.Supplies (asked env s i) s.host t.host := by
  cases i with
  | get name => exact supplies_of_get h
  | constant value =>
      cases h
      exact .nil _
  | set name | pop | unary op =>
      obtain ⟨p, -, h⟩ := exists_of_bind h
      cases h
      exact .nil _
  | call argc =>
      obtain ⟨args, f, rest, x, k, -, -, -, rfl⟩ := exists_of_call h
      exact .nil _
  | binary op =>
      obtain ⟨p, -, h⟩ := exists_of_bind h
      obtain ⟨q, -, h⟩ := exists_of_bind h
      obtain ⟨x, -, h⟩ := exists_of_bind h
      cases h
      exact .nil _

theorem reads_supplies (s : State σ) (code : List Instruction) :
    env.Supplies (reads env division index s code) s.host
      (stopped env division index s code).host := by
  induction code generalizing s with
  | nil => exact .nil _
  | cons i rest ih =>
      rw [reads, stopped]
      cases h : execute env division index s i with
      | ok t => exact (supplies_of_execute h).append (ih t)
      | error fault => exact .nil _

end Machine

namespace Program

/-! ## Runs -/

/-- The failure of a run, if it fails. -/
def failure? (program : Program σ) (v : Visit σ) : Option Failure :=
  match (program.visit v).result with
  | .ok _ => none
  | .error failure => some failure

/-- The numbers that are drawn for a run. -/
def drawnFor (program : Program σ) (v : Visit σ) : List Float :=
  program.draws v.generator v.index v.host

/-- The computed inputs that are read for a run. -/
def readFor (program : Program σ) (v : Visit σ) : List (String × Float) :=
  Machine.reads program.engine.environment program.engine.division v.index
    ⟨[], .empty, v.generator, v.host⟩ program.chunk.instructions

variable (program : Program σ)

theorem failure?_ok {v : Visit σ} {bindings : Bindings}
    (h : (program.visit v).result = .ok bindings) : program.failure? v = none := by
  rw [failure?, h]

theorem failure?_error {v : Visit σ} {failure : Failure}
    (h : (program.visit v).result = .error failure) : program.failure? v = some failure := by
  rw [failure?, h]

theorem yield_of_failure {v : Visit σ} {failure : Failure}
    (h : program.failure? v = some failure) : program.yield v = .error (.runtime failure) := by
  rw [failure?] at h
  split at h
  · cases h
  · rename_i hr
    cases h
    rw [yield, hr, outputs]

theorem exists_yield {v : Visit σ} (h : program.failure? v = none) :
    ∃ outputs, program.yield v = .ok outputs := by
  rw [failure?] at h
  split at h
  · rename_i hr
    exact ⟨_, by rw [yield, hr, outputs]⟩
  · cases h

/-- Runs that all succeed give one result each. -/
theorem mapM_yield {vs : List (Visit σ)} (h : ∀ v ∈ vs, program.failure? v = none) :
    ∃ outputs, vs.mapM program.yield = .ok outputs ∧
      vs.map program.yield = outputs.map .ok := by
  induction vs with
  | nil => exact ⟨[], rfl, rfl⟩
  | cons v vs ih =>
      obtain ⟨first, hfirst⟩ := program.exists_yield (h v List.mem_cons_self)
      obtain ⟨others, hmapM, hmap⟩ := ih fun w hw => h w (List.mem_cons_of_mem _ hw)
      refine ⟨first :: others, ?_, ?_⟩
      · rw [List.mapM_cons, hfirst, hmapM]
        rfl
      · rw [List.map_cons, hfirst, hmap, List.map_cons]

/-- A run that fails is all that is told of the runs up to it. -/
theorem mapM_yield_broken {vs : List (Visit σ)} {last : Visit σ} {failure : Failure}
    (h : ∀ v ∈ vs, program.failure? v = none) (hlast : program.failure? last = some failure) :
    (vs ++ [last]).mapM program.yield = .error (.runtime failure) := by
  obtain ⟨outputs, hmapM, -⟩ := program.mapM_yield h
  rw [List.mapM_append, hmapM, List.mapM_cons, program.yield_of_failure hlast]
  rfl

/-- A run draws the next numbers of the generator that it finds. -/
theorem drawnFor_drawn (v : Visit σ) :
    Drawn (program.drawnFor v) v.generator (program.visit v).generator := by
  have h : Drawn (program.drawnFor v) v.generator _ :=
    Machine.draws_drawn ⟨[], .empty, v.generator, v.host⟩ program.chunk.instructions
  rwa [(Machine.stopped_eq _ _ _ program.chunk 0 _ _).1] at h

/-- A run takes from the host what it reads, and changes it in no other way. -/
theorem readFor_supplies (v : Visit σ) :
    program.engine.environment.Supplies (program.readFor v) v.host (program.visit v).host := by
  have h : program.engine.environment.Supplies (program.readFor v) v.host _ :=
    Machine.reads_supplies ⟨[], .empty, v.generator, v.host⟩ program.chunk.instructions
  rwa [(Machine.stopped_eq _ _ _ program.chunk 0 _ _).2] at h

/-! ## The loop -/

theorem loop_ok {generator : Generator} {host : σ} {index : Nat} {bindings : Bindings}
    (h : (program.visit ⟨index, generator, host⟩).result = .ok bindings)
    (rest : List (Step σ)) :
    program.loop generator host (.run index :: rest) =
      let after := program.visit ⟨index, generator, host⟩
      let others := program.loop after.generator after.host rest
      { others with visits := ⟨index, generator, host⟩ :: others.visits } := by
  rw [loop]
  generalize program.visit ⟨index, generator, host⟩ = outcome at h
  obtain ⟨result, generator, host⟩ := outcome
  cases h
  rfl

theorem loop_error {generator : Generator} {host : σ} {index : Nat} {failure : Failure}
    (h : (program.visit ⟨index, generator, host⟩).result = .error failure)
    (rest : List (Step σ)) :
    program.loop generator host (.run index :: rest) =
      let after := program.visit ⟨index, generator, host⟩
      ⟨[⟨index, generator, host⟩], some failure, after.generator, after.host, rest⟩ := by
  rw [loop]
  generalize program.visit ⟨index, generator, host⟩ = outcome at h
  obtain ⟨result, generator, host⟩ := outcome
  cases h
  rfl

/-- A loop over steps in two parts goes on with the second part if none of
the first fails. -/
theorem loop_append (generator : Generator) (host : σ) (xs ys : List (Step σ)) :
    program.loop generator host (xs ++ ys) =
      let first := program.loop generator host xs
      match first.failure with
      | some _ => { first with left := first.left ++ ys }
      | none =>
        let second := program.loop first.generator first.host ys
        { second with visits := first.visits ++ second.visits } := by
  induction xs generalizing generator host with
  | nil => rfl
  | cons x xs ih =>
      cases x with
      | host act => exact ih generator (act host)
      | run index =>
          rw [List.cons_append]
          cases h : (program.visit ⟨index, generator, host⟩).result with
          | error failure => simp only [program.loop_error h]
          | ok bindings =>
              simp only [program.loop_ok h, ih]
              split
              · rfl
              · simp

/-- A loop runs at the first indices of its steps.  Where it stops early it
is behind a run that fails, the first to do so. -/
theorem loop_stops (generator : Generator) (host : σ) (steps : List (Step σ)) :
    let loop := program.loop generator host steps
    Step.indices steps = loop.visits.map (·.index) ++ Step.indices loop.left ∧
      loop.left <:+ steps ∧
      match loop.failure with
      | none => loop.left = [] ∧ ∀ v ∈ loop.visits, program.failure? v = none
      | some failure => ∃ early last, loop.visits = early ++ [last] ∧
          (∀ v ∈ early, program.failure? v = none) ∧ program.failure? last = some failure := by
  induction steps generalizing generator host with
  | nil => exact ⟨rfl, List.suffix_refl _, rfl, by simp [loop]⟩
  | cons x rest ih =>
      cases x with
      | host act =>
          obtain ⟨hindices, hleft, hstop⟩ := ih generator (act host)
          exact ⟨hindices, hleft.trans (List.suffix_cons _ _), hstop⟩
      | run index =>
          have hcons : Step.indices (.run index :: rest) = index :: Step.indices rest := rfl
          cases h : (program.visit ⟨index, generator, host⟩).result with
          | error failure =>
              rw [program.loop_error h, hcons]
              exact ⟨rfl, List.suffix_cons _ _, [], _, rfl, by simp, program.failure?_error h⟩
          | ok bindings =>
              rw [program.loop_ok h, hcons]
              obtain ⟨hindices, hleft, hstop⟩ := ih
                (program.visit ⟨index, generator, host⟩).generator
                (program.visit ⟨index, generator, host⟩).host
              refine ⟨congrArg (index :: ·) hindices, hleft.trans (List.suffix_cons _ _), ?_⟩
              have hfirst := program.failure?_ok h
              dsimp only
              split
              · rename_i hnone
                rw [hnone] at hstop
                exact ⟨hstop.1, List.forall_mem_cons.mpr ⟨hfirst, hstop.2⟩⟩
              · rename_i failure hsome
                rw [hsome] at hstop
                obtain ⟨early, last, hvisits, hearly, hlast⟩ := hstop
                exact ⟨_ :: early, last, by rw [hvisits]; rfl,
                  List.forall_mem_cons.mpr ⟨hfirst, hearly⟩, hlast⟩

/-- The runs of a loop draw one stream. -/
theorem loop_drawn (generator : Generator) (host : σ) (steps : List (Step σ)) :
    Drawn ((program.loop generator host steps).visits.flatMap program.drawnFor) generator
      (program.loop generator host steps).generator := by
  induction steps generalizing generator host with
  | nil => exact .nil _
  | cons x rest ih =>
      cases x with
      | host act => exact ih generator (act host)
      | run index =>
          have hfirst := program.drawnFor_drawn ⟨index, generator, host⟩
          cases h : (program.visit ⟨index, generator, host⟩).result with
          | error failure =>
              rw [program.loop_error h]
              simpa using hfirst
          | ok bindings =>
              rw [program.loop_ok h]
              exact hfirst.append (ih _ _)

end Program

/-! ## Sessions -/

namespace Session

variable (program : Program σ) (generator : Generator) (host : σ)

/-- An evaluation by a session that goes on is a run, and ends the session
if it fails. -/
theorem evaluate_live (index : Nat) :
    (⟨program, generator, false⟩ : Session σ).evaluate index host =
      let after := program.visit ⟨index, generator, host⟩
      (program.yield ⟨index, generator, host⟩,
        ⟨program, after.generator, (program.failure? ⟨index, generator, host⟩).isSome⟩,
        after.host) := by
  rw [Session.evaluate, Program.yield, Program.failure?, Program.visit]
  generalize program.run generator index host = outcome
  obtain ⟨result, generator, host⟩ := outcome
  cases result <;> rfl

/-- A frame is the loop over its indices. -/
theorem frame_live (indices : List Nat) :
    let session : Session σ := ⟨program, generator, false⟩
    let loop := program.loop generator host (indices.map .run)
    session.frame indices host =
        (loop.visits.mapM program.yield, ⟨program, loop.generator, loop.failure.isSome⟩,
          loop.host) ∧
      session.visits indices host = loop.visits := by
  induction indices generalizing generator host with
  | nil => exact ⟨rfl, rfl⟩
  | cons index rest ih =>
      intro session loop
      have heval := evaluate_live program generator host index
      cases h : (program.visit ⟨index, generator, host⟩).result with
      | error failure =>
          have hfails := program.failure?_error h
          have hloop : loop = _ := program.loop_error h (rest.map .run)
          rw [program.yield_of_failure hfails, hfails] at heval
          rw [hloop]
          refine ⟨?_, ?_⟩
          · rw [frame, heval, List.mapM_cons, program.yield_of_failure hfails]
            rfl
          · rw [visits, heval]
            rfl
      | ok bindings =>
          have hsucceeds := program.failure?_ok h
          have hloop : loop = _ := program.loop_ok h (rest.map .run)
          obtain ⟨outputs, houtputs⟩ := program.exists_yield hsucceeds
          obtain ⟨hframe, hvisits⟩ := ih (program.visit ⟨index, generator, host⟩).generator
            (program.visit ⟨index, generator, host⟩).host
          rw [houtputs, hsucceeds] at heval
          rw [hloop]
          refine ⟨?_, ?_⟩
          · rw [frame, heval]
            simp only [Option.isSome_none, hframe, List.mapM_cons, houtputs]
            cases (program.loop _ _ (rest.map .run)).visits.mapM program.yield <;> rfl
          · rw [visits, heval]
            simp only [Option.isSome_none, hvisits]
            rfl

/-- Every request is a frame. -/
theorem respond_eq_frame (session : Session σ) (request : Request) :
    session.respond request host = session.frame request.indices host := by
  cases request with
  | frame indices => rfl
  | evaluate index =>
      rw [respond, Request.indices, frame]
      obtain ⟨answer, next, host'⟩ := session.evaluate index host
      cases answer <;> rfl

/-- A session that has ended answers with an error, if anything is asked of
it, and nothing changes. -/
theorem frame_halted (indices : List Nat) :
    let session : Session σ := ⟨program, generator, true⟩
    session.frame indices host =
        (if indices = [] then .ok [] else .error .halted, session, host) ∧
      session.visits indices host = [] := by
  cases indices with
  | nil => exact ⟨rfl, rfl⟩
  | cons index rest => exact ⟨rfl, rfl⟩

end Session

/-- The runs of a turn are at the indices that are asked for. -/
theorem Turn.indices_steps (turn : Turn σ) : Step.indices turn.steps = turn.request.indices := by
  rw [Turn.steps, Step.indices, List.filterMap_cons, List.filterMap_map]
  exact List.filterMap_some

/-- What a session that has ended answers. -/
def Request.refusal (request : Request) : Except Error (List Outputs) :=
  if request.indices = [] then .ok [] else .error .halted

/-- An exchange with an answer as it should be. -/
inductive Program.Answers (program : Program σ) : Exchange σ → Prop
  /-- There was a run at each index, all succeeded, and the answer has the
  outputs of each. -/
  | complete {request : Request} {outputs : List Outputs} {visits : List (Visit σ)} :
      visits.map (·.index) = request.indices → visits.map program.yield = outputs.map .ok →
      program.Answers ⟨request, .ok outputs, visits⟩
  /-- There were runs up to the first that failed, and the answer is its
  failure. -/
  | broken {request : Request} {early : List (Visit σ)} {last : Visit σ} {failure : Failure} :
      (early ++ [last]).map (·.index) <+: request.indices →
      (∀ v ∈ early, program.failure? v = none) → program.failure? last = some failure →
      program.Answers ⟨request, .error (.runtime failure), early ++ [last]⟩
  /-- There was no run, although there were indices. -/
  | refused {request : Request} :
      request.indices ≠ [] → program.Answers ⟨request, .error .halted, []⟩

namespace Session

variable (program : Program σ) (generator : Generator)

/-- A turn with a session that goes on. -/
theorem exchange_live (turn : Turn σ) (host : σ) :
    let loop := program.loop generator host turn.steps
    exchange turn (⟨program, generator, false⟩, host) =
      (⟨turn.request, loop.visits.mapM program.yield, loop.visits⟩,
        ⟨program, loop.generator, loop.failure.isSome⟩, loop.host) := by
  obtain ⟨hframe, hvisits⟩ :=
    frame_live program generator (turn.meanwhile host) turn.request.indices
  rw [exchange, respond_eq_frame, hframe, hvisits]
  rfl

/-- A turn with a session that has ended. -/
theorem exchange_halted (turn : Turn σ) (host : σ) :
    exchange turn (⟨program, generator, true⟩, host) =
      (⟨turn.request, turn.request.refusal, []⟩, ⟨program, generator, true⟩,
        turn.meanwhile host) := by
  obtain ⟨hframe, hvisits⟩ :=
    frame_halted program generator (turn.meanwhile host) turn.request.indices
  rw [exchange, respond_eq_frame, hframe, hvisits]
  rfl

theorem answers_live (turn : Turn σ) (host : σ) :
    program.Answers (exchange turn (⟨program, generator, false⟩, host)).1 := by
  have hstops := program.loop_stops generator host turn.steps
  rw [exchange_live]
  dsimp only at hstops ⊢
  rw [Turn.indices_steps] at hstops
  obtain ⟨hreached, -, hstop⟩ := hstops
  split at hstop
  · obtain ⟨hleft, hsucceed⟩ := hstop
    obtain ⟨outputs, hmapM, hmap⟩ := program.mapM_yield hsucceed
    rw [hmapM]
    refine .complete ?_ hmap
    simpa [hleft, Step.indices] using hreached.symm
  · obtain ⟨early, last, hvisits, hearly, hlast⟩ := hstop
    rw [hvisits] at hreached ⊢
    rw [program.mapM_yield_broken hearly hlast]
    exact .broken ⟨_, hreached.symm⟩ hearly hlast

theorem answers_halted (turn : Turn σ) (host : σ) :
    program.Answers (exchange turn (⟨program, generator, true⟩, host)).1 := by
  rw [exchange_halted, Request.refusal]
  split
  · rename_i hnil
    exact .complete hnil.symm rfl
  · rename_i hne
    exact .refused hne

/-! ## Conversations -/

theorem pass_append (xs ys : List (Step σ)) (host : σ) :
    Step.pass (xs ++ ys) host = Step.pass ys (Step.pass xs host) :=
  List.foldl_append

/-- Runs that are not made leave the host alone. -/
theorem pass_of_runs {steps : List (Step σ)} (h : ∀ step ∈ steps, ∃ index, step = .run index)
    (host : σ) : Step.pass steps host = host := by
  induction steps with
  | nil => rfl
  | cons step rest ih =>
      obtain ⟨index, rfl⟩ := h step List.mem_cons_self
      exact ih fun other hother => h other (List.mem_cons_of_mem _ hother)

/-- A session that has ended takes no part in a conversation. -/
theorem converse_halted (turns : List (Turn σ)) (host : σ) :
    converse turns (⟨program, generator, true⟩, host) =
      (turns.map fun turn => ⟨turn.request, turn.request.refusal, []⟩,
        ⟨program, generator, true⟩, Step.pass (turns.flatMap Turn.steps) host) := by
  induction turns generalizing host with
  | nil => rfl
  | cons turn rest ih =>
      have hruns : Step.pass turn.steps host = turn.meanwhile host := by
        refine pass_of_runs (fun step hstep => ?_) (turn.meanwhile host)
        obtain ⟨index, -, rfl⟩ := List.mem_map.mp hstep
        exact ⟨index, rfl⟩
      rw [converse, exchange_halted, List.flatMap_cons, pass_append, hruns]
      simp only [ih, List.map_cons]

/-- A turn leaves no more than runs behind. -/
theorem pass_left (turn : Turn σ) (host state : σ) :
    Step.pass (program.loop generator host turn.steps).left state = state := by
  refine pass_of_runs (fun step hstep => ?_) state
  obtain ⟨-, hleft, -⟩ := program.loop_stops generator (turn.meanwhile host)
    (turn.request.indices.map .run)
  obtain ⟨index, -, rfl⟩ := List.mem_map.mp (hleft.subset hstep)
  exact ⟨index, rfl⟩

/-- A conversation makes the runs of the loop over all its steps, and leaves
the session as the loop stops. -/
theorem converse_live (turns : List (Turn σ)) (host : σ) :
    let loop := program.loop generator host (turns.flatMap Turn.steps)
    let talk := converse turns (⟨program, generator, false⟩, host)
    talk.1.flatMap (·.visits) = loop.visits ∧
      talk.2 = (⟨program, loop.generator, loop.failure.isSome⟩, Step.pass loop.left loop.host) := by
  induction turns generalizing generator host with
  | nil => exact ⟨rfl, rfl⟩
  | cons turn rest ih =>
      have hleft := pass_left program generator turn host
      intro loop talk
      have hloop : loop = _ := program.loop_append generator host turn.steps
        (rest.flatMap Turn.steps)
      have htalk : talk = converse (turn :: rest) (⟨program, generator, false⟩, host) := rfl
      rw [converse, exchange_live] at htalk
      generalize program.loop generator host turn.steps = first at hleft hloop htalk
      obtain ⟨visits, failure, generator', host', left⟩ := first
      rw [htalk, hloop]
      cases failure with
      | some failure =>
          simp only [Option.isSome_some, converse_halted, pass_append, hleft, List.flatMap_cons]
          simp
      | none =>
          obtain ⟨hvisits, hlast⟩ := ih generator' host'
          exact ⟨congrArg (visits ++ ·) hvisits, hlast⟩

/-- Every answer in a conversation is as it should be. -/
theorem answers_converse (session : Session σ) (turns : List (Turn σ)) (host : σ) :
    ∀ e ∈ (converse turns (session, host)).1, session.program.Answers e := by
  induction turns generalizing session host with
  | nil => simp [converse]
  | cons turn rest ih =>
      obtain ⟨program, generator, halted⟩ := session
      rw [converse, List.forall_mem_cons]
      cases halted with
      | false =>
          refine ⟨answers_live program generator turn host, ?_⟩
          rw [exchange_live]
          exact ih _ _
      | true =>
          refine ⟨answers_halted program generator turn host, ?_⟩
          rw [exchange_halted]
          exact ih _ _

/-- The requests of a conversation are those of its turns. -/
theorem requests_converse (at' : Session σ × σ) (turns : List (Turn σ)) :
    (converse turns at').1.map (·.request) = turns.map (·.request) := by
  induction turns generalizing at' with
  | nil => rfl
  | cons turn rest ih => exact congrArg (turn.request :: ·) (ih _)

theorem indices_flatMap (turns : List (Turn σ)) :
    Step.indices (turns.flatMap Turn.steps) = turns.flatMap (·.request.indices) := by
  induction turns with
  | nil => rfl
  | cons turn rest ih =>
      rw [List.flatMap_cons, List.flatMap_cons, ← ih, Step.indices, List.filterMap_append]
      exact congrArg (· ++ _) turn.indices_steps

end Session

/-- The runs are at the first of the indices: at all of them, or up to the
first run that fails. -/
inductive Program.UpToFailure (program : Program σ) (indices : List Nat) :
    List (Visit σ) → Prop
  | all {visits : List (Visit σ)} : visits.map (·.index) = indices →
      (∀ v ∈ visits, program.failure? v = none) → program.UpToFailure indices visits
  | some {early : List (Visit σ)} {last : Visit σ} {failure : Failure} :
      (early ++ [last]).map (·.index) <+: indices →
      (∀ v ∈ early, program.failure? v = none) → program.failure? last = some failure →
      program.UpToFailure indices (early ++ [last])

namespace Program

variable (program : Program σ) (generator : Generator) (host : σ) (steps : List (Step σ))

theorem loop_upToFailure :
    program.UpToFailure (Step.indices steps) (program.loop generator host steps).visits := by
  obtain ⟨hindices, -, hstop⟩ := program.loop_stops generator host steps
  split at hstop
  · obtain ⟨hleft, hsucceed⟩ := hstop
    exact .all (by simpa [hleft, Step.indices] using hindices.symm) hsucceed
  · obtain ⟨early, last, hvisits, hearly, hlast⟩ := hstop
    rw [hvisits] at hindices ⊢
    exact .some ⟨_, hindices.symm⟩ hearly hlast

/-- A loop ends with a failure exactly if one of its runs fails. -/
theorem isSome_loop_failure :
    (program.loop generator host steps).failure.isSome = true ↔
      ∃ v ∈ (program.loop generator host steps).visits, (program.failure? v).isSome := by
  obtain ⟨-, -, hstop⟩ := program.loop_stops generator host steps
  split at hstop
  · rename_i hnone
    rw [hnone]
    refine iff_of_false (by simp) ?_
    rintro ⟨v, hv, hfails⟩
    simp [hstop.2 v hv] at hfails
  · rename_i failure hsome
    obtain ⟨early, last, hvisits, -, hlast⟩ := hstop
    rw [hsome, hvisits]
    exact iff_of_true rfl ⟨last, by simp, by simp [hlast]⟩

end Program

/-- However a host puts its requests together, a session makes the runs of a
plain loop over all their indices, up to the first that fails, and so it draws
the numbers and reads the inputs of that loop.  Each request is answered by
its own runs, and the session has ended exactly if one of the runs failed.

A session that has ended makes no run, and nothing about it changes. -/
theorem session_refines_loop (program : Program σ) (generator : Generator)
    (turns : List (Turn σ)) (host : σ) :
    let talk := Session.converse turns (⟨program, generator, false⟩, host)
    let visits := talk.1.flatMap (·.visits)
    let loop := program.loop generator host (turns.flatMap Turn.steps)
    (visits = loop.visits ∧ program.UpToFailure (turns.flatMap (·.request.indices)) visits) ∧
      Drawn (visits.flatMap program.drawnFor) generator loop.generator ∧
      (∀ v ∈ visits, program.engine.environment.Supplies (program.readFor v) v.host
        (program.visit v).host) ∧
      (talk.1.map (·.request) = turns.map (·.request) ∧ ∀ e ∈ talk.1, program.Answers e) ∧
      talk.2 =
        (⟨program, loop.generator, loop.failure.isSome⟩, Step.pass loop.left loop.host) ∧
      (talk.2.1.halted = true ↔ ∃ v ∈ visits, (program.failure? v).isSome) ∧
      Session.converse turns (⟨program, generator, true⟩, host) =
        (turns.map fun turn => ⟨turn.request, turn.request.refusal, []⟩,
          ⟨program, generator, true⟩, Step.pass (turns.flatMap Turn.steps) host) := by
  intro talk visits loop
  obtain ⟨hvisits, hlast⟩ := Session.converse_live program generator turns host
  have hruns : visits = loop.visits := hvisits
  have hupTo : program.UpToFailure (turns.flatMap (·.request.indices)) visits := by
    rw [hruns, ← Session.indices_flatMap]
    exact program.loop_upToFailure generator host _
  have hdrawn : Drawn (visits.flatMap program.drawnFor) generator loop.generator := by
    rw [hruns]
    exact program.loop_drawn generator host _
  refine ⟨⟨hruns, hupTo⟩, hdrawn, fun v _ => program.readFor_supplies v,
    ⟨Session.requests_converse _ _, Session.answers_converse _ _ _⟩, hlast, ?_,
    Session.converse_halted _ _ _ _⟩
  have hhalted : talk.2.1.halted = loop.failure.isSome :=
    congrArg (fun at' : Session σ × σ => at'.1.halted) hlast
  rw [hhalted, hruns]
  exact program.isSome_loop_failure generator host _

end Pixelwise
