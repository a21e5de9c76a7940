/-
Independence — programs and sessions of one engine do not disturb each other.

What members of a company share are the environment and the host.  Where
computed inputs have the same value on every read, a run comes to the same
whatever the host went through before (`visit_steady`), and then a call changes
nothing but the member that it goes to.  So the calls to one member can be
taken out of any sequence of calls.

Main statement: `run_independent`.
-/
import Pixelwise.Engine.Company
import Pixelwise.Proofs.Conversing

namespace Pixelwise

variable {σ : Type}

/-- On these states of the host every computed input has the same value
whenever it is read, and reads lead to no other states. -/
structure Environment.Steady (env : Environment σ) (good : σ → Prop) : Prop where
  same {name : String} {read : σ → Float × σ} : env.get? name = some (.computed read) →
    ∀ {s t : σ}, good s → good t → (read s).1 = (read t).1
  kept {name : String} {read : σ → Float × σ} : env.get? name = some (.computed read) →
    ∀ {s : σ}, good s → good (read s).2

/-! ## Side by side -/

/-- Two computations fail alike, or come to results that are related. -/
inductive SideBySide {ε α β : Type} (R : α → β → Prop) : Except ε α → Except ε β → Prop
  | error (e : ε) : SideBySide R (.error e) (.error e)
  | ok {a : α} {b : β} : R a b → SideBySide R (.ok a) (.ok b)

namespace SideBySide

variable {ε α β γ δ : Type}

theorem refl (x : Except ε α) : SideBySide (· = ·) x x := by
  cases x with
  | error e => exact .error e
  | ok a => exact .ok rfl

theorem bind {R : α → β → Prop} {S : γ → δ → Prop} {x : Except ε α} {y : Except ε β}
    {f : α → Except ε γ} {g : β → Except ε δ} (h : SideBySide R x y)
    (hfg : ∀ a b, R a b → SideBySide S (f a) (g b)) : SideBySide S (x >>= f) (y >>= g) := by
  cases h with
  | error e => exact .error e
  | ok hab => exact hfg _ _ hab

/-- The same step of both, and then each goes on. -/
theorem bind_same {S : γ → δ → Prop} (x : Except ε α) {f : α → Except ε γ}
    {g : α → Except ε δ} (hfg : ∀ a, SideBySide S (f a) (g a)) :
    SideBySide S (x >>= f) (x >>= g) :=
  (refl x).bind fun a _ hab => hab ▸ hfg a

end SideBySide

/-! ## Runs with different hosts -/

/-- The same value, and hosts among the good ones. -/
def SameValue {α : Type} (good : σ → Prop) (x y : α × σ) : Prop :=
  x.1 = y.1 ∧ good x.2 ∧ good y.2

/-- States that differ in their hosts alone. -/
structure Machine.State.Alike (good : σ → Prop) (s t : Machine.State σ) : Prop where
  stack : s.stack = t.stack
  bindings : s.bindings = t.bindings
  generator : s.generator = t.generator
  left : good s.host
  right : good t.host

namespace Machine

variable {env : Environment σ} {good : σ → Prop} {division : DivisionPolicy} {index : Nat}
  {s t : State σ}

/-- A read gives the same value for every good host. -/
theorem resolve_steady (hsteady : env.Steady good) (h : s.Alike good t) (name : String) :
    SideBySide (SameValue good) (resolve env index name s) (resolve env index name t) := by
  obtain ⟨stack, bindings, generator, host⟩ := s
  obtain ⟨_, _, _, host'⟩ := t
  obtain ⟨rfl, rfl, rfl, hgood, hgood'⟩ := h
  simp only [resolve, Environment.resolve]
  cases Builtin.ofName? name with
  | some f => exact .ok ⟨rfl, hgood, hgood'⟩
  | none =>
      cases hget : env.get? name with
      | none =>
          dsimp only
          cases bindings.get? name with
          | none => exact .error _
          | some value => exact .ok ⟨rfl, hgood, hgood'⟩
      | some input =>
          cases input with
          | constant value => exact .ok ⟨rfl, hgood, hgood'⟩
          | sequence values =>
              simp only [Input.valueAt?]
              cases values[index]? with
              | none => exact .error _
              | some value => exact .ok ⟨rfl, hgood, hgood'⟩
          | computed read =>
              have hvalue := hsteady.same hget hgood hgood'
              exact .ok ⟨congrArg Value.number hvalue, hsteady.kept hget hgood,
                hsteady.kept hget hgood'⟩

/-- A call asks nothing of the host. -/
theorem call_steady (h : s.Alike good t) (argc : Nat) :
    SideBySide (State.Alike good) (call argc s) (call argc t) := by
  obtain ⟨stack, bindings, generator, host⟩ := s
  obtain ⟨_, _, _, host'⟩ := t
  obtain ⟨rfl, rfl, rfl, hgood, hgood'⟩ := h
  refine .bind_same _ fun ⟨args, rest⟩ => .bind_same _ fun ⟨callee, rest⟩ => ?_
  cases callee with
  | number x => exact .error _
  | function f =>
      dsimp only
      cases f.apply args generator with
      | none => exact .error _
      | some result => exact .ok ⟨rfl, rfl, rfl, hgood, hgood'⟩

theorem execute_steady (hsteady : env.Steady good) (h : s.Alike good t) (i : Instruction) :
    SideBySide (State.Alike good) (execute env division index s i)
      (execute env division index t i) := by
  cases i with
  | get name =>
      refine (resolve_steady hsteady h name).bind fun a b hab => .ok ?_
      exact ⟨by rw [hab.1, h.stack], h.bindings, h.generator, hab.2.1, hab.2.2⟩
  | call argc => exact call_steady h argc
  | constant value =>
      exact .ok ⟨congrArg (Value.number value :: ·) h.stack, h.bindings, h.generator, h.left,
        h.right⟩
  | set name =>
      rw [execute, execute, h.stack]
      refine .bind_same _ fun ⟨value, rest⟩ => .ok ?_
      exact ⟨rfl, congrArg (·.set name value) h.bindings, h.generator, h.left, h.right⟩
  | pop =>
      rw [execute, execute, h.stack]
      refine .bind_same _ fun ⟨value, rest⟩ => .ok ?_
      exact ⟨rfl, congrArg (·.note value) h.bindings, h.generator, h.left, h.right⟩
  | unary op =>
      rw [execute, execute, h.stack]
      refine .bind_same _ fun ⟨a, rest⟩ => .ok ?_
      exact ⟨rfl, h.bindings, h.generator, h.left, h.right⟩
  | binary op =>
      rw [execute, execute, h.stack]
      refine .bind_same _ fun ⟨b, rest⟩ => .bind_same _ fun ⟨a, rest⟩ =>
        .bind_same _ fun result => .ok ?_
      exact ⟨rfl, h.bindings, h.generator, h.left, h.right⟩

/-- Code comes to the same for every good host, and leaves it a good one. -/
theorem runFrom_steady (hsteady : env.Steady good) (chunk : Chunk) (offset : Nat)
    (h : s.Alike good t) (code : List Instruction) :
    let x := runFrom env division index chunk offset s code
    let y := runFrom env division index chunk offset t code
    x.result = y.result ∧ x.generator = y.generator ∧ good x.host ∧ good y.host := by
  induction code generalizing offset s t with
  | nil => exact ⟨congrArg Except.ok h.bindings, h.generator, h.left, h.right⟩
  | cons i rest ih =>
      have hstep : SideBySide (State.Alike good) (execute env division index s i)
          (execute env division index t i) := execute_steady hsteady h i
      rw [runFrom, runFrom]
      cases hs : execute env division index s i with
      | error fault =>
          rw [hs] at hstep
          cases ht : execute env division index t i with
          | ok t' =>
              rw [ht] at hstep
              cases hstep
          | error fault' =>
              rw [ht] at hstep
              cases hstep
              exact ⟨rfl, h.generator, h.left, h.right⟩
      | ok s' =>
          rw [hs] at hstep
          cases ht : execute env division index t i with
          | error fault =>
              rw [ht] at hstep
              cases hstep
          | ok t' =>
              rw [ht] at hstep
              cases hstep with
              | ok h' => exact ih (offset + 1) h'

end Machine

/-- A run of a program comes to the same for every good host. -/
theorem Program.visit_steady {good : σ → Prop} {program : Program σ}
    (hsteady : program.engine.environment.Steady good) (index : Nat) (generator : Generator)
    {host host' : σ} (hhost : good host) (hhost' : good host') :
    let x := program.visit ⟨index, generator, host⟩
    let y := program.visit ⟨index, generator, host'⟩
    x.result = y.result ∧ x.generator = y.generator ∧ good x.host ∧ good y.host := by
  have h : Machine.State.Alike good ⟨[], .empty, generator, host⟩ ⟨[], .empty, generator, host'⟩ :=
    ⟨rfl, rfl, rfl, hhost, hhost'⟩
  exact Machine.runFrom_steady hsteady program.chunk 0 h program.chunk.instructions

/-! ## Sessions that go the same way -/

namespace Session

/-- Sessions of one program that draw and end alike, whatever the program has
drawn by itself. -/
structure Alike (engine : Engine σ) (s t : Session σ) : Prop where
  left : s.program.engine = engine
  right : t.program.engine = engine
  chunk : s.program.chunk = t.program.chunk
  generator : s.generator = t.generator
  halted : s.halted = t.halted

/-- The same answer from sessions that are alike still, and good hosts. -/
structure AlikeAfter {α : Type} (engine : Engine σ) (good : σ → Prop)
    (x y : Except Error α × Session σ × σ) : Prop where
  answer : x.1 = y.1
  session : Alike engine x.2.1 y.2.1
  left : good x.2.2
  right : good y.2.2

theorem Alike.refl {engine : Engine σ} {s : Session σ} (h : s.program.engine = engine) :
    Alike engine s s :=
  ⟨h, h, rfl, rfl, rfl⟩

variable {engine : Engine σ} {good : σ → Prop} {s t : Session σ} {host host' : σ}

theorem evaluate_alike (hsteady : engine.environment.Steady good) (h : Alike engine s t)
    (hhost : good host) (hhost' : good host') (index : Nat) :
    AlikeAfter engine good (s.evaluate index host) (t.evaluate index host') := by
  obtain ⟨⟨own, chunk, drawn⟩, generator, halted⟩ := s
  obtain ⟨⟨_, _, drawn'⟩, _, _⟩ := t
  obtain ⟨hleft, hright, hchunk, hgenerator, hhalted⟩ := h
  cases hleft
  cases hright
  cases hchunk
  cases hgenerator
  cases hhalted
  cases halted with
  | true => exact ⟨rfl, ⟨rfl, rfl, rfl, rfl, rfl⟩, hhost, hhost'⟩
  | false =>
      -- the generators of the programs themselves take no part in a run
      let program : Program σ := ⟨own, chunk, drawn⟩
      have hprogram : program.engine.environment.Steady good := hsteady
      obtain ⟨hresult, hgenerator, hleft, hright⟩ :=
        Program.visit_steady hprogram index generator hhost hhost'
      rw [evaluate_live, evaluate_live]
      refine ⟨congrArg program.outputs hresult, ⟨rfl, rfl, rfl, hgenerator, ?_⟩, hleft, hright⟩
      show (program.failure? _).isSome = (program.failure? _).isSome
      rw [Program.failure?, Program.failure?, hresult]

theorem frame_alike (hsteady : engine.environment.Steady good) (h : Alike engine s t)
    (hhost : good host) (hhost' : good host') (indices : List Nat) :
    AlikeAfter engine good (s.frame indices host) (t.frame indices host') := by
  induction indices generalizing s t host host' with
  | nil => exact ⟨rfl, h, hhost, hhost'⟩
  | cons index rest ih =>
      obtain ⟨hanswer, hsession, hleft, hright⟩ := evaluate_alike hsteady h hhost hhost' index
      rw [frame, frame]
      generalize s.evaluate index host = x at *
      generalize t.evaluate index host' = y at *
      obtain ⟨answer, s, host⟩ := x
      obtain ⟨_, t, host'⟩ := y
      cases hanswer
      cases answer with
      | error e => exact ⟨rfl, hsession, hleft, hright⟩
      | ok outputs =>
          obtain ⟨hanswers, hsession, hleft, hright⟩ := ih hsession hleft hright
          dsimp only
          generalize s.frame rest host = x at *
          generalize t.frame rest host' = y at *
          obtain ⟨answers, s, host⟩ := x
          obtain ⟨_, t, host'⟩ := y
          cases hanswers
          cases answers with
          | error e => exact ⟨rfl, hsession, hleft, hright⟩
          | ok others => exact ⟨rfl, hsession, hleft, hright⟩

theorem respond_alike (hsteady : engine.environment.Steady good) (h : Alike engine s t)
    (hhost : good host) (hhost' : good host') (request : Request) :
    AlikeAfter engine good (s.respond request host) (t.respond request host') := by
  rw [respond_eq_frame, respond_eq_frame]
  exact frame_alike hsteady h hhost hhost' request.indices

end Session

/-! ## Companies -/

namespace Company

variable {ι κ : Type}

/-- A company that grew from some programs of an engine: a program may have
drawn by now, and all sessions are on the engine as well. -/
structure GrownFrom (engine : Engine σ) (programs : ι → Program σ) (x : Company ι κ σ) :
    Prop where
  programs : ∀ i, (x.programs i).engine = engine ∧ (x.programs i).chunk = (programs i).chunk
  sessions : ∀ k s, x.sessions k = some s → s.program.engine = engine

/-- Companies that are alike as far as a member can tell. -/
def Agree (engine : Engine σ) (x y : Company ι κ σ) : Member ι κ → Prop
  | .program i => x.programs i = y.programs i
  | .session k => Option.Rel (Session.Alike engine) (x.sessions k) (y.sessions k)

variable {engine : Engine σ} {programs : ι → Program σ} {x y : Company ι κ σ}
  {host host' : σ} {m : Member ι κ}

theorem GrownFrom.agree (h : x.GrownFrom engine programs) (m : Member ι κ) :
    x.Agree engine x m := by
  cases m with
  | program i => exact rfl
  | session k =>
      show Option.Rel _ (x.sessions k) (x.sessions k)
      cases hs : x.sessions k with
      | none => exact .none
      | some s => exact .some (.refl (h.sessions k s hs))

theorem condition_of_agree (h : x.Agree engine y m) : x.condition m = y.condition m := by
  cases m with
  | program i => exact congrArg (fun program => some (program.generator, false)) h
  | session k =>
      have hrel : Option.Rel (Session.Alike engine) (x.sessions k) (y.sessions k) := h
      rw [condition, condition]
      generalize x.sessions k = s at hrel ⊢
      generalize y.sessions k = t at hrel ⊢
      cases hrel with
      | none => rfl
      | some halike => rw [Option.map_some, Option.map_some, halike.generator, halike.halted]

theorem grownFrom_ofPrograms (h : ∀ i, (programs i).engine = engine) :
    (ofPrograms programs : Company ι κ σ).GrownFrom engine programs :=
  ⟨fun i => ⟨h i, rfl⟩, fun k s hs => by simp [ofPrograms] at hs⟩

theorem GrownFrom.putProgram [DecidableEq ι] (h : x.GrownFrom engine programs) {i : ι}
    {program : Program σ} (hengine : program.engine = engine)
    (hchunk : program.chunk = (programs i).chunk) :
    (x.putProgram i program).GrownFrom engine programs := by
  refine ⟨fun j => ?_, h.sessions⟩
  by_cases hj : j = i
  · subst hj
    rw [programs_putProgram_self]
    exact ⟨hengine, hchunk⟩
  · rw [programs_putProgram_of_ne x hj]
    exact h.programs j

theorem GrownFrom.putSession [DecidableEq κ] (h : x.GrownFrom engine programs) {k : κ}
    {s : Session σ} (hengine : s.program.engine = engine) :
    (x.putSession k s).GrownFrom engine programs := by
  refine ⟨h.programs, fun l t ht => ?_⟩
  by_cases hl : l = k
  · subst hl
    rw [sessions_putSession_self] at ht
    exact Option.some.inj ht ▸ hengine
  · rw [sessions_putSession_of_ne x hl] at ht
    exact h.sessions l t ht

variable [DecidableEq ι] [DecidableEq κ]

/-- A call leaves alone what another member can tell of the company. -/
theorem serve_other {call : Call ι κ} (hcall : call.member ≠ m) (h : x.Agree engine y m) :
    (serve call (x, host)).2.1.Agree engine y m := by
  cases m with
  | program j =>
      cases call with
      | evaluate i index =>
          have hne : j ≠ i := fun hj => hcall (congrArg Member.program hj.symm)
          exact (programs_putProgram_of_ne x hne _).trans h
      | start k i => exact h
      | ask k request =>
          rw [serve]
          split <;> exact h
  | session l =>
      have hput (k : κ) (s : Session σ) (hk : (Member.session k : Member ι κ) ≠ .session l) :
          (x.putSession k s).Agree engine y (.session l) := by
        have hne : l ≠ k := fun hl => hk (congrArg Member.session hl.symm)
        rw [Agree, sessions_putSession_of_ne x hne]
        exact h
      cases call with
      | evaluate i index => exact h
      | start k i => exact hput k _ hcall
      | ask k request =>
          rw [serve]
          split
          · exact h
          · exact hput k _ hcall

/-- Where companies agree about the member that is called, they give the same
answer, agree about it still, and leave good hosts. -/
theorem serve_own {good : σ → Prop} (hsteady : engine.environment.Steady good)
    (hx : x.GrownFrom engine programs) (hy : y.GrownFrom engine programs) {call : Call ι κ}
    (h : x.Agree engine y call.member) (hhost : good host) (hhost' : good host') :
    let r := serve call (x, host)
    let r' := serve call (y, host')
    r.1 = r'.1 ∧ r.2.1.Agree engine r'.2.1 call.member ∧ good r.2.2 ∧ good r'.2.2 := by
  cases call with
  | evaluate i index =>
      have hprogram : x.programs i = y.programs i := h
      have hruns : (x.programs i).engine.environment.Steady good := by
        rw [(hx.programs i).1]
        exact hsteady
      obtain ⟨hresult, hgenerator, hleft, hright⟩ := Program.visit_steady hruns index
        (x.programs i).generator hhost hhost'
      rw [serve, serve, ← hprogram]
      refine ⟨?_, ?_, hleft, hright⟩
      · exact congrArg (fun r => some (((x.programs i).outputs r).map ([·]))) hresult
      · show (Company.putProgram _ i _).programs i = (Company.putProgram _ i _).programs i
        rw [programs_putProgram_self, programs_putProgram_self]
        exact congrArg (fun g => { x.programs i with generator := g }) hgenerator
  | start k i =>
      obtain ⟨hengine, hchunk⟩ := hx.programs i
      obtain ⟨hengine', hchunk'⟩ := hy.programs i
      refine ⟨rfl, ?_, hhost, hhost'⟩
      show Option.Rel _ ((Company.putSession _ k _).sessions k) ((Company.putSession _ k _).sessions k)
      rw [sessions_putSession_self, sessions_putSession_self]
      refine .some ⟨hengine, hengine', hchunk.trans hchunk'.symm, ?_, rfl⟩
      exact congrArg (fun e : Engine σ => Generator.ofSeed e.seed) (hengine.trans hengine'.symm)
  | ask k request =>
      have hrel : Option.Rel (Session.Alike engine) (x.sessions k) (y.sessions k) := h
      rw [serve, serve]
      cases hs : x.sessions k with
      | none =>
          cases ht : y.sessions k with
          | some t =>
              rw [hs, ht] at hrel
              cases hrel
          | none => exact ⟨rfl, h, hhost, hhost'⟩
      | some s =>
          cases ht : y.sessions k with
          | none =>
              rw [hs, ht] at hrel
              cases hrel
          | some t =>
              rw [hs, ht] at hrel
              cases hrel with
              | some halike =>
                  obtain ⟨hanswer, hsession, hleft, hright⟩ :=
                    Session.respond_alike hsteady halike hhost hhost' request
                  refine ⟨congrArg some hanswer, ?_, hleft, hright⟩
                  show Option.Rel _ ((Company.putSession _ k _).sessions k)
                    ((Company.putSession _ k _).sessions k)
                  rw [sessions_putSession_self, sessions_putSession_self]
                  exact .some hsession

/-- A call keeps the programs and the sessions on their engine. -/
theorem grownFrom_serve {good : σ → Prop} (hsteady : engine.environment.Steady good)
    (hx : x.GrownFrom engine programs) (hhost : good host) (call : Call ι κ) :
    (serve call (x, host)).2.1.GrownFrom engine programs := by
  cases call with
  | evaluate i index => exact hx.putProgram (hx.programs i).1 (hx.programs i).2
  | start k i => exact hx.putSession (hx.programs i).1
  | ask k request =>
      rw [serve]
      split
      · exact hx
      · rename_i s hs
        have halike := Session.Alike.refl (hx.sessions k s hs)
        exact hx.putSession (Session.respond_alike hsteady halike hhost hhost request).session.left

/-- Calls to other members can be left out. -/
theorem run_agree {good : σ → Prop} (hsteady : engine.environment.Steady good)
    (hx : x.GrownFrom engine programs) (hy : y.GrownFrom engine programs)
    (h : x.Agree engine y m) (hhost : good host) (hhost' : good host')
    (calls : List (Call ι κ)) :
    let all := run calls (x, host)
    let alone := run (calls.filter (·.member = m)) (y, host')
    all.1.filter (·.1.member = m) = alone.1 ∧ all.2.1.Agree engine alone.2.1 m := by
  induction calls generalizing x y host host' with
  | nil => exact ⟨rfl, h⟩
  | cons call rest ih =>
      have hx' := grownFrom_serve hsteady hx hhost call
      by_cases hcall : call.member = m
      · subst hcall
        have hy' := grownFrom_serve hsteady hy hhost' call
        obtain ⟨hanswer, hagree, hleft, hright⟩ := serve_own hsteady hx hy h hhost hhost'
        obtain ⟨hanswers, hlast⟩ := ih hx' hy' hagree hleft hright
        rw [List.filter_cons_of_pos (by simp)]
        refine ⟨?_, hlast⟩
        show List.filter _ ((call, _) :: _) = (call, _) :: _
        rw [List.filter_cons_of_pos (by simp)]
        exact congr (congrArg List.cons (congrArg (call, ·) hanswer)) hanswers
      · -- the host stays a good one, whoever is called
        obtain ⟨-, -, hleft, -⟩ := serve_own hsteady hx hx (hx.agree call.member) hhost hhost
        obtain ⟨hanswers, hlast⟩ := ih hx' hy (serve_other hcall h) hleft hhost'
        rw [List.filter_cons_of_neg (by simpa using hcall)]
        refine ⟨?_, hlast⟩
        show List.filter _ ((call, _) :: _) = _
        rw [List.filter_cons_of_neg (by simpa using hcall)]
        exact hanswers

/-- A company stays grown from its programs. -/
theorem grownFrom_run {good : σ → Prop} (hsteady : engine.environment.Steady good)
    (hx : x.GrownFrom engine programs) (hhost : good host) (calls : List (Call ι κ)) :
    (run calls (x, host)).2.1.GrownFrom engine programs := by
  induction calls generalizing x host with
  | nil => exact hx
  | cons call rest ih =>
      obtain ⟨-, -, hleft, -⟩ := serve_own hsteady hx hx (hx.agree call.member) hhost hhost
      exact ih (grownFrom_serve hsteady hx hhost call) hleft

end Company

/-- Where computed inputs have the same value on every read, the programs and
the sessions of an engine do not disturb each other: whatever else is called
for in between, a member gives the answers and comes to the condition that it
would if it were called on alone, even with another host.

A call changes no other member's condition, so no session ends another; and a
session starts at the seed, whatever was drawn before it. -/
theorem run_independent {ι κ : Type} [DecidableEq ι] [DecidableEq κ] {engine : Engine σ}
    {good : σ → Prop} (hsteady : engine.environment.Steady good) {programs : ι → Program σ}
    (hprograms : ∀ i, ∃ source, engine.compile source = .ok (programs i))
    (calls : List (Call ι κ)) {host host' : σ} (hhost : good host) (hhost' : good host')
    (m : Member ι κ) :
    let all := Company.run calls (.ofPrograms programs, host)
    let alone := Company.run (calls.filter (·.member = m)) (.ofPrograms programs, host')
    (all.1.filter (·.1.member = m) = alone.1 ∧
        all.2.1.condition m = alone.2.1.condition m) ∧
      (∀ call : Call ι κ, call.member ≠ m →
        (Company.serve call all.2).2.1.condition m = all.2.1.condition m) ∧
      ∀ k i, (Company.serve (.start k i) all.2).2.1.condition (.session k) =
        some (.ofSeed engine.seed, false) := by
  intro all alone
  have hengine (i : ι) : (programs i).engine = engine := by
    obtain ⟨source, hsource⟩ := hprograms i
    obtain ⟨chunk, -, hprogram⟩ := Engine.exists_of_compile hsource
    rw [hprogram]
  have hstart : (Company.ofPrograms programs : Company ι κ σ).GrownFrom engine programs :=
    Company.grownFrom_ofPrograms hengine
  have hgrown : all.2.1.GrownFrom engine programs :=
    Company.grownFrom_run hsteady hstart hhost calls
  obtain ⟨hanswers, hagree⟩ :=
    Company.run_agree hsteady hstart hstart (hstart.agree m) hhost hhost' calls
  refine ⟨⟨hanswers, Company.condition_of_agree hagree⟩, ?_, ?_⟩
  · intro call hcall
    exact Company.condition_of_agree (Company.serve_other hcall (hgrown.agree m))
  · intro k i
    show Option.map _ ((Company.putSession _ k _).sessions k) = _
    rw [Company.sessions_putSession_self, Option.map_some]
    show some (Generator.ofSeed (all.2.1.programs i).engine.seed, false) = _
    rw [(hgrown.programs i).1]

/-- One session fails, while another and the program go on.  The host counts
the reads of `t`, and `t` itself does not depend on them. -/
theorem run_independent_counter :
    let counter : Nat → Float × Nat := fun reads => (2, reads + 1)
    let engine : Engine Nat :=
      ⟨⟨⟨[("s", .sequence #[1]), ("t", .computed counter)]⟩⟩, .fail, 7, .pixel⟩
    let calls : List (Call Unit Bool) :=
      [.start true (), .start false (), .ask true (.evaluate 5), .evaluate () 0,
        .ask false (.frame [0, 0]), .ask true (.frame [0])]
    ∃ programs : Unit → Program Nat,
      (∀ i, ∃ source, engine.compile source = .ok (programs i)) ∧
        let all := Company.run calls (.ofPrograms programs, 0)
        let alone := Company.run (calls.filter (·.member = .session false))
          (.ofPrograms programs, 6)
        all.1.filter (·.1.member = .session false) = alone.1 ∧
          all.2.1.condition (.session false) = alone.2.1.condition (.session false) ∧
          (all.2.1.condition (.session false)).map (·.2) = some false ∧
          (all.2.1.condition (.session true)).map (·.2) = some true := by
  intro counter engine calls
  let chunk : Chunk :=
    ⟨[.get "t", .get "rand", .call 0, .binary .add, .get "s", .binary .add, .pop],
      [1, 1, 1, 1, 1, 1, 1], 2⟩
  have hnames : engine.environment.names = ["s", "t"] := rfl
  have hchunk : compile ["s", "t"] "t+rand()+s;" = .ok chunk := by
    with_unfolding_all rfl
  have h : engine.compile "t+rand()+s;" = .ok ⟨engine, chunk, .ofSeed 7⟩ := by
    rw [Engine.compile, hnames, hchunk]
  have hcomputed {name : String} {read : Nat → Float × Nat}
      (hget : engine.environment.get? name = some (.computed read)) : read = counter := by
    let entries : List (String × Input Nat) := [("s", .sequence #[1]), ("t", .computed counter)]
    have hentries : NameTable.findEntry name entries = some (.computed read) := hget
    rw [NameTable.findEntry, NameTable.findEntry, NameTable.findEntry] at hentries
    split at hentries
    · cases hentries
    · split at hentries
      · cases hentries
        rfl
      · cases hentries
  have hsteady : engine.environment.Steady fun _ => True :=
    ⟨fun hget _ _ _ _ => by rw [hcomputed hget], fun _ _ _ => trivial⟩
  let programs : Unit → Program Nat := fun _ => ⟨engine, chunk, .ofSeed 7⟩
  have hprograms (i : Unit) : ∃ source, engine.compile source = .ok (programs i) := ⟨_, h⟩
  have hfirst : (fun _ : Nat => True) 0 := trivial
  have hsecond : (fun _ : Nat => True) 6 := trivial
  obtain ⟨⟨hanswers, hcondition⟩, -⟩ :=
    run_independent hsteady hprograms calls hfirst hsecond (.session false)
  exact ⟨programs, hprograms, hanswers, hcondition, rfl, rfl⟩

end Pixelwise
