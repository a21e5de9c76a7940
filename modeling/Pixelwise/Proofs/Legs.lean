/-
Legs — a compilation from one recovery to the next.

A compilation is a sequence of legs: the look at the first token, and then
in each round the reading of a statement and the recovery after it.  In one
leg a problem of form is the last that is reported
(`Leg.reports_orderly`).  Each leg takes up the tokens where the last one
left them (`legs_pairwise`), and so the legs are in the order in which they
go through the source.

Main statements: `finish_told`, that the legs report all there is; and the
`begins` and `ends` lemmas, where a leg begins and ends that comes to a
statement or skips it.
-/
import Pixelwise.Proofs.Rounds

namespace Pixelwise.Compiler

open Syntax Token

variable {inputs : List String} {source : String}

/-! ## Legs -/

/-- What was reported from `s` to `r`. -/
def told (s r : State) : List Diagnostic :=
  r.diagnostics.toList.drop s.diagnostics.size

section

variable {s r : State} {d : Diagnostic}

theorem told_eq {ds : Array Diagnostic} (h : r.diagnostics = s.diagnostics ++ ds) :
    told s r = ds.toList := by
  rw [told, h, Array.toList_append, ← Array.length_toList, List.drop_left]

theorem toList_eq_told (h : ∃ ds, r.diagnostics = s.diagnostics ++ ds) :
    r.diagnostics.toList = s.diagnostics.toList ++ told s r := by
  obtain ⟨ds, hds⟩ := h
  rw [told_eq hds, hds, Array.toList_append]

theorem mem_told_iff (h : ∃ ds, r.diagnostics = s.diagnostics ++ ds) :
    d ∈ told s r ↔ New d s r := by
  obtain ⟨ds, hds⟩ := h
  rw [told_eq hds, new_iff hds, Array.mem_toList_iff]

theorem Speaks.orderly (h : Speaks s r) :
    (told s r).Pairwise fun d _ => d.problem.isSyntax = false := by
  obtain ⟨ds, hds, hspoken⟩ := h
  rw [told_eq hds]
  exact hspoken.orderly

end

/-- A part of a compilation from one recovery to the next: the look at the
first token, and the reading and the recovery of the round that begins in a
state. -/
inductive Leg where
  | opening
  | reading (s : State)
  | recovery (s : State)

namespace Leg

variable (inputs : List String) (source : String)

/-- What is reported in a leg. -/
def reports : Leg → List Diagnostic
  | opening => strayAhead (scan source)
  | reading s => told s (statement inputs s)
  | recovery s => told (statement inputs s) (round inputs s)

/-- How many tokens are left when a leg begins.  The first one counts the
place before all tokens as one. -/
def before : Leg → Nat
  | opening => (scan source).length + 1
  | reading s => s.pending.length
  | recovery s => (statement inputs s).pending.length

/-- How many tokens are left when a leg ends. -/
def after : Leg → Nat
  | opening => (State.start [] (scan source) (endOf source)).pending.length
  | reading s => (statement inputs s).pending.length
  | recovery s => (round inputs s).pending.length

end Leg

/-- The legs of the rounds from a state on. -/
def roundLegs (inputs : List String) (s : State) : List Leg :=
  if _ : s.pending = [] then [] else .reading s :: .recovery s :: roundLegs inputs (round inputs s)
termination_by s.pending.length
decreasing_by
  have := (statement inputs s).recoverIfPanicking_pending_le
  have := statement_pending_le inputs s
  have := List.length_pos_iff.mpr (by assumption)
  rw [round]
  omega

/-- The legs of a compilation. -/
def legs (inputs : List String) (source : String) : List Leg :=
  .opening :: roundLegs inputs (State.start [] (scan source) (endOf source))

theorem round_pending_le (inputs : List String) (s : State) :
    (round inputs s).pending.length ≤ (statement inputs s).pending.length :=
  (statement inputs s).recoverIfPanicking_pending_le

/-- The legs of all rounds report all there is. -/
theorem statements_told (s : State) :
    (statements inputs s).diagnostics.toList =
      s.diagnostics.toList ++ (roundLegs inputs s).flatMap (Leg.reports inputs source) := by
  fun_induction statements inputs s with
  | case1 s hp =>
      rw [roundLegs, dif_pos hp]
      simp
  | case2 s hp ih =>
      rw [roundLegs, dif_neg hp, ih,
        toList_eq_told (recoverIfPanicking_diagnostics (statement inputs s)),
        toList_eq_told (statement_goes inputs s).diagnostics]
      simp [Leg.reports, round]

theorem finish_told :
    (finish [] inputs source).diagnostics.toList =
      (legs inputs source).flatMap (Leg.reports inputs source) := by
  rw [finish, statements_told, start_diagnostics]
  rfl

theorem mem_roundLegs_iff {s : State} {l : Leg} :
    l ∈ roundLegs inputs s ↔
      ∃ u, Follows inputs s u ∧ u.pending ≠ [] ∧ (l = .reading u ∨ l = .recovery u) := by
  fun_induction roundLegs inputs s with
  | case1 s hp =>
      refine iff_of_false List.not_mem_nil ?_
      rintro ⟨u, hu, hne, -⟩
      rcases hu.cases with rfl | ⟨hs, -⟩
      · exact hne hp
      · exact hs hp
  | case2 s hs ih =>
      rw [List.mem_cons, List.mem_cons, ← or_assoc, ih]
      constructor
      · rintro (hl | ⟨u, hu, hne, hl⟩)
        · exact ⟨s, .refl, hs, hl⟩
        · exact ⟨u, hu.head hs, hne, hl⟩
      · rintro ⟨u, hu, hne, hl⟩
        rcases hu.cases with rfl | ⟨-, hu⟩
        · exact Or.inl hl
        · exact Or.inr ⟨u, hu, hne, hl⟩

theorem mem_legs_iff {l : Leg} :
    l ∈ legs inputs source ↔ l = .opening ∨
      ∃ s, Begins inputs source s ∧ s.pending ≠ [] ∧ (l = .reading s ∨ l = .recovery s) := by
  rw [legs, List.mem_cons, mem_roundLegs_iff]
  rfl

theorem mem_reading_iff {s : State} {d : Diagnostic} :
    d ∈ (Leg.reading s).reports inputs source ↔ New d s (statement inputs s) :=
  mem_told_iff (statement_goes inputs s).diagnostics

theorem mem_recovery_iff {s : State} {d : Diagnostic} :
    d ∈ (Leg.recovery s).reports inputs source ↔
      (statement inputs s).panicking = true ∧
        New d (statement inputs s).calmed (statement inputs s).calmed.skipStatement :=
  (mem_told_iff (recoverIfPanicking_diagnostics (statement inputs s))).trans new_recover_iff

/-! ## The order of the legs -/

theorem roundLegs_before_le (s : State) :
    ∀ l ∈ roundLegs inputs s, l.before inputs source ≤ s.pending.length := by
  fun_induction roundLegs inputs s with
  | case1 => simp
  | case2 s _ ih =>
      have hstatement := statement_pending_le inputs s
      have hround := round_pending_le inputs s
      intro l hl
      rcases List.mem_cons.mp hl with rfl | hl
      · exact Nat.le_refl _
      · rcases List.mem_cons.mp hl with rfl | hl
        · simp only [Leg.before]
          omega
        · have := ih l hl
          omega

/-- A leg begins where the last one ended, or later. -/
theorem roundLegs_pairwise (s : State) :
    (roundLegs inputs s).Pairwise fun l l' => l'.before inputs source ≤ l.after inputs source := by
  fun_induction roundLegs inputs s with
  | case1 => exact .nil
  | case2 s _ ih =>
      have hround := round_pending_le inputs s
      refine .cons (fun l hl => ?_) (.cons (roundLegs_before_le _) ih)
      rcases List.mem_cons.mp hl with rfl | hl
      · exact Nat.le_refl _
      · exact Nat.le_trans (roundLegs_before_le _ l hl) hround

theorem legs_pairwise :
    (legs inputs source).Pairwise fun l l' =>
      l'.before inputs source ≤ l.after inputs source :=
  .cons (roundLegs_before_le _) (roundLegs_pairwise _)

theorem Leg.after_le (inputs : List String) (source : String) (l : Leg) :
    l.after inputs source ≤ l.before inputs source := by
  cases l with
  | opening =>
      have := (rests_start source).pending
      have := (clear_suffix (scan source)).length_le
      simp only [after, before, *]
      omega
  | reading s => exact Nat.le_trans (statement_pending_le inputs s) (Nat.sub_le ..)
  | recovery s => exact round_pending_le inputs s

/-- In one leg a problem of form is the last that is reported. -/
theorem Leg.reports_orderly (l : Leg) :
    (l.reports inputs source).Pairwise fun d _ => d.problem.isSyntax = false := by
  cases l with
  | opening =>
      rw [reports]
      cases scan source with
      | nil => exact .nil
      | cons t rest => cases h : t.kind <;> simp [strayAhead, h]
  | reading s => exact (Speaks.stepwise.statement inputs s).orderly
  | recovery s =>
      rw [reports, round, State.recoverIfPanicking]
      split
      · exact (Speaks.stepwise.skipStatement (statement inputs s).calmed).orderly
      · have hquiet : (statement inputs s).diagnostics = (statement inputs s).diagnostics ++ #[] :=
          by simp
        rw [told_eq hquiet]
        exact .nil

/-! ## Where legs begin and end -/

section

variable {s : State} {ts body tail : List Token}

/-- Recovery that stands before the end of a statement skips to behind it. -/
theorem skip_pending_le (hp : s.pending = ts ++ tail) (hbare : Bare ts)
    (hclosed : tail = [] ∨ kindAhead tail = .semicolon)
    (hprev : s.previous.kind ≠ .semicolon) :
    s.skipStatement.pending.length ≤ tail.length - 1 := by
  fun_induction State.skipStatement s generalizing ts with
  | case1 s hnil => simp [hnil]
  | case2 s _ hk => exact absurd hk hprev
  | case3 s _ _ ih =>
      have hadv := s.rests_advance
      cases ts with
      | nil =>
          cases tail with
          | nil => contradiction
          | cons semicolon rest =>
              rw [skip_stop, hadv.pending, hp]
              · exact (clear_suffix rest).length_le
              · rw [hadv.previous, State.current_of_pending hp]
                exact hclosed.resolve_left (by simp)
      | cons t ts =>
          have hrest : s.advance.pending = clear ts ++ tail := by
            rw [hadv.pending, hp, ← clear_append (settled_of_closed hclosed)]
            rfl
          refine ih hrest ((hbare.suffix (List.suffix_cons t ts)).suffix (clear_suffix ts)) ?_
          rw [hadv.previous, State.current_of_pending hp]
          exact hbare t List.mem_cons_self

theorem round_of_panicking (h : (statement inputs s).panicking = true) :
    round inputs s = (statement inputs s).calmed.skipStatement :=
  if_pos h

theorem Regains.begins (h : Regains s ts) : ts.length < s.pending.length := by
  obtain ⟨-, us, semicolon, hp, -⟩ := h
  rw [hp, List.length_append, List.length_cons]
  omega

theorem Regains.ends (h : Regains (statement inputs s) ts)
    (hpanic : (statement inputs s).panicking = true) :
    (round inputs s).pending.length ≤ ts.length := by
  obtain ⟨hprev, us, semicolon, hp, hbare, hk, -⟩ := h
  rw [round_of_panicking hpanic]
  exact skip_pending_le (s := (statement inputs s).calmed) hp hbare (Or.inr hk) hprev

theorem Meets.begins (h : Meets s tail) : tail.length < s.pending.length := by
  obtain ⟨-, us, hp, -, t, ht, -⟩ := h
  have := List.length_pos_of_mem ht
  rw [hp, List.length_append]
  omega

theorem Meets.ends (h : Meets (statement inputs s) tail)
    (hclosed : tail = [] ∨ kindAhead tail = .semicolon)
    (hpanic : (statement inputs s).panicking = true) :
    (round inputs s).pending.length ≤ tail.length - 1 := by
  obtain ⟨hprev, us, hp, hbare, -⟩ := h
  rw [round_of_panicking hpanic]
  exact skip_pending_le (s := (statement inputs s).calmed) hp hbare hclosed hprev

end

end Pixelwise.Compiler
