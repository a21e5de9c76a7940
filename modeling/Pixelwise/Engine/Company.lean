/-
Companies — programs and sessions that share an engine.

A host may keep any number of programs and start any number of sessions of
them, and call on all of these in any order.  They share the engine with its
environment, and the host that computed inputs read; each has a generator of
its own.

`Company.serve` is one call and `Company.run` any sequence of calls.
-/
import Pixelwise.Engine.Conversation

namespace Pixelwise

/-- A program or a session of a company, by its name. -/
inductive Member (ι κ : Type) where
  | program (i : ι)
  | session (k : κ)
deriving DecidableEq, Repr

/-- What a host can call for. -/
inductive Call (ι κ : Type) where
  /-- An evaluation by a program itself. -/
  | evaluate (i : ι) (index : Nat)
  /-- A new session of a program. -/
  | start (k : κ) (i : ι)
  /-- A request to a session. -/
  | ask (k : κ) (request : Request)
deriving DecidableEq, Repr

/-- The member that a call goes to; a session is called on when it is started. -/
def Call.member {ι κ : Type} : Call ι κ → Member ι κ
  | evaluate i _ => .program i
  | start k _ => .session k
  | ask k _ => .session k

/-- Programs and sessions by their names; a session has to be started first. -/
structure Company (ι κ σ : Type) where
  programs : ι → Program σ
  sessions : κ → Option (Session σ)

namespace Company

variable {ι κ σ : Type}

/-- Programs of which no session is started yet. -/
def ofPrograms (programs : ι → Program σ) : Company ι κ σ :=
  ⟨programs, fun _ => none⟩

/-- The generator of a member and whether it has ended, which programs never
do; none of a session that was never started. -/
def condition (company : Company ι κ σ) : Member ι κ → Option (Generator × Bool)
  | .program i => some ((company.programs i).generator, false)
  | .session k => (company.sessions k).map fun session => (session.generator, session.halted)

section

variable [DecidableEq ι]

/-- The company with a program in another state. -/
def putProgram (company : Company ι κ σ) (i : ι) (program : Program σ) : Company ι κ σ :=
  { company with programs := fun j => if j = i then program else company.programs j }

@[simp] theorem programs_putProgram_self (company : Company ι κ σ) (i : ι)
    (program : Program σ) : (company.putProgram i program).programs i = program :=
  if_pos rfl

theorem programs_putProgram_of_ne (company : Company ι κ σ) {i j : ι} (h : j ≠ i)
    (program : Program σ) : (company.putProgram i program).programs j = company.programs j :=
  if_neg h

end

section

variable [DecidableEq κ]

/-- The company with a session in another state. -/
def putSession (company : Company ι κ σ) (k : κ) (session : Session σ) : Company ι κ σ :=
  { company with sessions := fun l => if l = k then some session else company.sessions l }

@[simp] theorem sessions_putSession_self (company : Company ι κ σ) (k : κ)
    (session : Session σ) : (company.putSession k session).sessions k = some session :=
  if_pos rfl

theorem sessions_putSession_of_ne (company : Company ι κ σ) {k l : κ} (h : l ≠ k)
    (session : Session σ) : (company.putSession k session).sessions l = company.sessions l :=
  if_neg h

end

variable [DecidableEq ι] [DecidableEq κ]

/-- Answer a call.  A session that is started gives no answer, nor does one
that was never started. -/
def serve (call : Call ι κ) (at' : Company ι κ σ × σ) :
    Option (Except Error (List Outputs)) × Company ι κ σ × σ :=
  let (company, host) := at'
  match call with
  | .evaluate i index =>
    let (answer, program, host) := (company.programs i).evaluate index host
    (some (answer.map ([·])), company.putProgram i program, host)
  | .start k i => (none, company.putSession k (company.programs i).session, host)
  | .ask k request =>
    match company.sessions k with
    | none => (none, company, host)
    | some session =>
      let (answer, session, host) := session.respond request host
      (some answer, company.putSession k session, host)

/-- Answer calls in order: the calls with their answers, and the company and
the host after them. -/
def run : List (Call ι κ) → Company ι κ σ × σ →
    List (Call ι κ × Option (Except Error (List Outputs))) × Company ι κ σ × σ
  | [], at' => ([], at')
  | call :: rest, at' =>
    let first := serve call at'
    let others := run rest first.2
    ((call, first.1) :: others.1, others.2)

end Company

end Pixelwise
