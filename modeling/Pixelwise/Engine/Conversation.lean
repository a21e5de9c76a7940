/-
Conversations — what a host asks of a session, one request after another.

A request is an evaluation or a frame, which is any number of evaluations.
Between two requests the host goes on by itself: it may set a clock that
computed inputs read, for example.

An exchange keeps, beside the answer, the runs that the session made for it
(`Visit`).  A run depends on its program, its index, and the generator and the
host that it finds, and so do its answer, the numbers that it draws and the
inputs that it reads.
-/
import Pixelwise.Engine.Session

namespace Pixelwise

/-- What a host asks of a session. -/
inductive Request where
  | evaluate (index : Nat)
  /-- An evaluation at each index, in order. -/
  | frame (indices : List Nat)
deriving DecidableEq, Repr

/-- The indices that are asked for, in order. -/
def Request.indices : Request → List Nat
  | evaluate index => [index]
  | frame indices => indices

/-- A request, and what the host does by itself before it. -/
structure Turn (σ : Type) where
  meanwhile : σ → σ
  request : Request

/-- A run of a program: at which index, and the generator and the host as it
finds them. -/
structure Visit (σ : Type) where
  index : Nat
  generator : Generator
  host : σ

/-- A request, its answer, and the runs that were made for it. -/
structure Exchange (σ : Type) where
  request : Request
  answer : Except Error (List Outputs)
  visits : List (Visit σ)

variable {σ : Type}

namespace Program

/-- What a run comes to. -/
def visit (program : Program σ) (v : Visit σ) : Machine.Outcome σ :=
  program.run v.generator v.index v.host

/-- What a run comes to for the host. -/
def yield (program : Program σ) (v : Visit σ) : Except Error Outputs :=
  program.outputs (program.visit v).result

end Program

namespace Session

/-- Answer a request; the answer to an evaluation is a list of one. -/
def respond (session : Session σ) (request : Request) (host : σ) :
    Except Error (List Outputs) × Session σ × σ :=
  match request with
  | .evaluate index =>
    let (answer, next) := session.evaluate index host
    (answer.map ([·]), next)
  | .frame indices => session.frame indices host

/-- The runs that are made for evaluations at some indices: none by a session
that has ended, and none behind one that fails. -/
def visits (session : Session σ) (indices : List Nat) (host : σ) : List (Visit σ) :=
  match indices with
  | [] => []
  | index :: rest =>
    if session.halted then []
    else
      ⟨index, session.generator, host⟩ ::
        match session.evaluate index host with
        | (.ok _, session, host) => session.visits rest host
        | (.error _, _, _) => []

/-- One turn of a conversation. -/
def exchange (turn : Turn σ) (at' : Session σ × σ) : Exchange σ × Session σ × σ :=
  let (session, host) := at'
  let found := turn.meanwhile host
  let (answer, next) := session.respond turn.request found
  (⟨turn.request, answer, session.visits turn.request.indices found⟩, next)

/-- A whole conversation: what was exchanged, and the session and the host
after it. -/
def converse : List (Turn σ) → Session σ × σ → List (Exchange σ) × Session σ × σ
  | [], at' => ([], at')
  | turn :: rest, at' =>
    let first := exchange turn at'
    let others := converse rest first.2
    (first.1 :: others.1, others.2)

end Session

/-! ## A plain loop -/

/-- A step of a loop over indices. -/
inductive Step (σ : Type) where
  /-- The host goes on by itself. -/
  | host (act : σ → σ)
  /-- The program is run at an index. -/
  | run (index : Nat)

namespace Step

/-- The indices of the runs among steps. -/
def indices (steps : List (Step σ)) : List Nat :=
  steps.filterMap fun
    | host _ => none
    | run index => some index

/-- The host after it went on by itself, but no program was run. -/
def pass (steps : List (Step σ)) (state : σ) : σ :=
  steps.foldl
    (fun state step =>
      match step with
      | host act => act state
      | run _ => state)
    state

end Step

/-- The steps of a turn. -/
def Turn.steps (turn : Turn σ) : List (Step σ) :=
  .host turn.meanwhile :: turn.request.indices.map .run

/-- Where a loop stopped. -/
structure Loop (σ : Type) where
  /-- The runs that were made. -/
  visits : List (Visit σ)
  /-- The failure of the last run, if it failed. -/
  failure : Option Failure
  generator : Generator
  host : σ
  /-- The steps that were not taken any more. -/
  left : List (Step σ)

/-- Take steps from the left and stop behind the first run that fails. -/
def Program.loop (program : Program σ) (generator : Generator) (host : σ) :
    List (Step σ) → Loop σ
  | [] => ⟨[], none, generator, host, []⟩
  | .host act :: rest => program.loop generator (act host) rest
  | .run index :: rest =>
    let visit : Visit σ := ⟨index, generator, host⟩
    match program.visit visit with
    | ⟨.ok _, generator, host⟩ =>
      let others := program.loop generator host rest
      { others with visits := visit :: others.visits }
    | ⟨.error failure, generator, host⟩ => ⟨[visit], some failure, generator, host, rest⟩

end Pixelwise
