/-
Halting — how a session answers before, at and behind its first failure.

The first run that fails divides a conversation in three: the requests before
it are answered with outputs, the request that makes it with its failure, and
those behind it are refused (`FailStop`).  A frame without indices is never
refused, for it is answered before anything is asked about the session.

Main statement: `failStop_iff_no_empty_frame`.
-/
import Pixelwise.Proofs.Conversing

namespace Pixelwise

variable {σ : Type}

/-- The law of a session that stops at its first failure: what is exchanged
before is answered with outputs, the exchange with the failure is answered
with that failure, and all requests behind it are answered with `refusal`. -/
def FailStop (program : Program σ) (refusal : Request → Except Error (List Outputs)) :
    List (Exchange σ) → Prop
  | [] => True
  | e :: rest =>
    ((∀ v ∈ e.visits, program.failure? v = none) ∧ (∃ outputs, e.answer = .ok outputs) ∧
      FailStop program refusal rest) ∨
    ∃ v ∈ e.visits, ∃ failure, program.failure? v = some failure ∧
      e.answer = .error (.runtime failure) ∧
      ∀ later ∈ rest, later.answer = refusal later.request

/-- A run that was made for the exchange failed. -/
def Exchange.Fails (program : Program σ) (e : Exchange σ) : Prop :=
  ∃ v ∈ e.visits, (program.failure? v).isSome

section

variable {program : Program σ}

theorem not_fails_iff {e : Exchange σ} :
    ¬ e.Fails program ↔ ∀ v ∈ e.visits, program.failure? v = none := by
  simp [Exchange.Fails]

/-- Where the law holds for one refusal, it holds for another exactly if the
two agree on all requests behind a failure. -/
theorem failStop_iff {refusal refusal' : Request → Except Error (List Outputs)}
    {exchanges : List (Exchange σ)} (h : FailStop program refusal exchanges) :
    FailStop program refusal' exchanges ↔
      ∀ before e behind, exchanges = before ++ e :: behind → e.Fails program →
        ∀ later ∈ behind, refusal later.request = refusal' later.request := by
  induction exchanges with
  | nil => simp [FailStop]
  | cons e rest ih =>
      rcases h with ⟨hsucceed, houtputs, hrest⟩ | ⟨v, hv, failure, hfailure, hanswer, hrefused⟩
      · constructor
        · intro h
          rcases h with ⟨-, -, h⟩ | ⟨v, hv, failure, hfailure, -⟩
          · intro before e' behind hsplit hfails
            cases before with
            | nil =>
                cases hsplit
                exact absurd hfails (not_fails_iff.mpr hsucceed)
            | cons x before =>
                cases hsplit
                exact (ih hrest).mp h before e' behind rfl hfails
          · exact absurd (hfailure.symm.trans (hsucceed v hv)) (by simp)
        · intro h
          refine Or.inl ⟨hsucceed, houtputs, (ih hrest).mpr ?_⟩
          intro before e' behind hsplit
          exact h (e :: before) e' behind (congrArg (e :: ·) hsplit)
      · have hfails : e.Fails program := ⟨v, hv, by simp [hfailure]⟩
        constructor
        · intro h
          rcases h with ⟨hsucceed, -⟩ | ⟨_, -, _, -, -, hrefused'⟩
          · exact absurd (hfailure.symm.trans (hsucceed v hv)) (by simp)
          · have hagree : ∀ later ∈ rest, refusal later.request = refusal' later.request :=
              fun later hlater => (hrefused later hlater).symm.trans (hrefused' later hlater)
            intro before e' behind hsplit _ later hlater
            cases before with
            | nil =>
                cases hsplit
                exact hagree later hlater
            | cons x before =>
                cases hsplit
                exact hagree later (by simp [hlater])
        · intro h
          refine Or.inr ⟨v, hv, failure, hfailure, hanswer, fun later hlater => ?_⟩
          exact (hrefused later hlater).trans (h [] e rest rfl hfails later hlater)

end

/-- Every conversation keeps the law, with the refusals that sessions give. -/
theorem failStop_refusal (program : Program σ) (generator : Generator)
    (turns : List (Turn σ)) (host : σ) :
    FailStop program Request.refusal
      (Session.converse turns (⟨program, generator, false⟩, host)).1 := by
  induction turns generalizing generator host with
  | nil => trivial
  | cons turn rest ih =>
      rw [Session.converse, Session.exchange_live]
      have hstops := program.loop_stops generator host turn.steps
      generalize program.loop generator host turn.steps = loop at hstops
      obtain ⟨visits, failure, generator', host', left⟩ := loop
      obtain ⟨-, -, hstop⟩ := hstops
      cases failure with
      | none =>
          obtain ⟨-, hsucceed⟩ := hstop
          obtain ⟨outputs, hmapM, -⟩ := program.mapM_yield hsucceed
          exact Or.inl ⟨hsucceed, ⟨outputs, hmapM⟩, ih generator' host'⟩
      | some failure =>
          obtain ⟨early, last, rfl, hearly, hlast⟩ := hstop
          refine Or.inr ⟨last, by simp, failure, hlast,
            program.mapM_yield_broken hearly hlast, ?_⟩
          simp only [Option.isSome_some, Session.converse_halted]
          intro later hlater
          obtain ⟨turn, -, rfl⟩ := List.mem_map.mp hlater
          rfl

/-- Only a frame without indices is not refused. -/
theorem refusal_eq_halted_iff {request : Request} :
    request.refusal = .error .halted ↔ request ≠ .frame [] := by
  cases request with
  | evaluate index => exact iff_of_true rfl (by simp)
  | frame indices =>
      cases indices with
      | nil => exact iff_of_false (fun h => by cases h) (by simp)
      | cons index rest => exact iff_of_true rfl (by simp)

/-- In every conversation with a session, all requests before the first
failure are answered with outputs, the one that makes the failing run with its
failure, and all behind it are refused, frames without indices apart.  So
every request behind the failure is refused exactly if none of them is such a
frame. -/
theorem failStop_iff_no_empty_frame (program : Program σ) (generator : Generator)
    (turns : List (Turn σ)) (host : σ) :
    let exchanges := (Session.converse turns (⟨program, generator, false⟩, host)).1
    exchanges.map (·.request) = turns.map (·.request) ∧
      FailStop program Request.refusal exchanges ∧
      (FailStop program (fun _ => .error .halted) exchanges ↔
        ∀ before e behind, exchanges = before ++ e :: behind → e.Fails program →
          ∀ later ∈ behind, later.request ≠ .frame []) := by
  intro exchanges
  have hlaw : FailStop program Request.refusal exchanges :=
    failStop_refusal program generator turns host
  refine ⟨Session.requests_converse _ _, hlaw, ?_⟩
  rw [failStop_iff hlaw]
  simp only [refusal_eq_halted_iff]

/-- A frame without indices is answered with outputs, although the session
has ended. -/
theorem halted_answers_empty_frame :
    ¬ ∀ (engine : Engine Unit) (source : String) (program : Program Unit)
        (turns : List (Turn Unit)), engine.compile source = .ok program →
        FailStop program (fun _ => .error .halted)
          (Session.converse turns (program.session, ())).1 := by
  intro h
  let engine : Engine Unit := ⟨⟨⟨[("s", .sequence #[])]⟩⟩, .zero, 0, .pixel⟩
  have hchunk : compile engine.environment.names "s;" =
      .ok ⟨[.get "s", .pop], [1, 1], 1⟩ := by
    with_unfolding_all rfl
  have hcompile : engine.compile "s;" = .ok ⟨engine, ⟨[.get "s", .pop], [1, 1], 1⟩, .ofSeed 0⟩ := by
    rw [Engine.compile, hchunk]
  have hlaw := h engine "s;" _ [⟨id, .evaluate 0⟩, ⟨id, .frame []⟩] hcompile
  rcases hlaw with ⟨hsucceed, -⟩ | ⟨_, -, _, -, -, hrefused⟩
  · cases hsucceed ⟨0, .ofSeed 0, ()⟩ List.mem_cons_self
  · cases hrefused ⟨.frame [], .ok [], []⟩ List.mem_cons_self

end Pixelwise
