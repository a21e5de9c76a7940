/-
Placing — where the compiler stands in the source.

The compiler drops unexpected characters silently while it panics, takes
tokens wherever it looks for them, and skips the rest of a statement to
recover.  Through all of this it stands right behind the token taken last,
with nothing but unexpected characters between (`Placed`).  So a state that
has just taken a semicolon stands where a statement begins.

Main statement: `Reads.placed`, that every reading keeps the compiler in its
place, and with it that names are only assigned where an assignment sign
follows them.
-/
import Pixelwise.Proofs.Calm

namespace Pixelwise.Compiler

open Syntax

/-! ## Where a state stands in the source -/

/-- A name is the target of an assignment: an assignment sign follows it,
behind unexpected characters if there are any. -/
def Target (tokens : List Token) (name : String) : Prop :=
  ∃ before t rest, tokens = before ++ t :: rest ∧ t.kind = .identifier ∧ t.lexeme = name ∧
    kindAhead (clear rest) = .equal

theorem Target.exists_equal {tokens : List Token} {name : String} (h : Target tokens name) :
    ∃ t ∈ tokens, t.kind = .equal := by
  obtain ⟨before, target, rest, rfl, -, -, hequal⟩ := h
  cases hrest : clear rest with
  | nil => simp [hrest, kindAhead] at hequal
  | cons t ts =>
      have ht : t ∈ rest := clear_mem (hrest ▸ List.mem_cons_self)
      exact ⟨t, by simp [ht], by simpa [hrest] using hequal⟩

/-- The state stands in `tokens`, right behind the token taken last, and the
names assigned so far are targets of assignments in `tokens`. -/
structure Placed (tokens : List Token) (s : State) : Prop where
  place : s.pending = [] ∨ ∃ before rest, tokens = before ++ rest ∧ s.pending = clear rest ∧
    (before.getLast? = some s.previous ∨ before = [] ∧ s.previous.kind = .endOfInput)
  targets : ∀ name ∈ s.assigned, Target tokens name

/-- From `s` to `r` no token is taken and no name assigned. -/
structure Rests (s r : State) : Prop where
  pending : r.pending = s.pending
  previous : r.previous = s.previous
  assigned : r.assigned = s.assigned
  final : r.final = s.final

namespace Rests

variable {s r q : State}

theorem refl (s : State) : Rests s s :=
  ⟨rfl, rfl, rfl, rfl⟩

theorem trans (h : Rests s r) (h' : Rests r q) : Rests s q :=
  ⟨h'.pending.trans h.pending, h'.previous.trans h.previous, h'.assigned.trans h.assigned,
    h'.final.trans h.final⟩

theorem report (s : State) (t : Token) (p : Problem) : Rests s (s.report t p) := by
  rw [State.report]
  split
  · exact refl s
  · exact ⟨rfl, rfl, rfl, rfl⟩

theorem emit (s : State) (i : Instruction) : Rests s (s.emit i) :=
  ⟨rfl, rfl, rfl, rfl⟩

theorem emitAll (s : State) (is : List Instruction) : Rests s (s.emitAll is) := by
  rw [State.emitAll_eq_after s []]
  exact ⟨rfl, rfl, rfl, rfl⟩

theorem number (s : State) (t : Token) : Rests s (s.number t) := by
  rw [State.number]
  split
  · exact emit s _
  · exact (report s _ _).trans (emit _ _)

theorem check {t : Token} (h : State.Checks t s r) : Rests s r := by
  cases h with
  | passed => exact refl s
  | failed p => exact report s t p

end Rests

namespace State

theorem rests_settle (s : State) (ts : List Token) :
    Rests { s with pending := clear ts } (s.settle ts) := by
  induction ts generalizing s with
  | nil => exact ⟨rfl, rfl, rfl, rfl⟩
  | cons t rest ih =>
      rw [settle]
      split
      · rename_i c hc
        have hreport := Rests.report s t (.unexpectedCharacter c)
        have hclear : clear (t :: rest) = clear rest := by
          simp [clear, hc, Token.Kind.isUnexpected]
        rw [hclear]
        have := ih (s.report t (.unexpectedCharacter c))
        exact ⟨this.pending, this.previous.trans hreport.previous,
          this.assigned.trans hreport.assigned, this.final.trans hreport.final⟩
      · rename_i hne
        rw [clear_of_settled (settled_cons_iff.mpr fun c hc => hne c hc)]
        exact ⟨rfl, rfl, rfl, rfl⟩

theorem rests_advance (s : State) :
    Rests { s with previous := s.current, pending := clear s.pending.tail } s.advance :=
  rests_settle { s with previous := s.current } s.pending.tail

end State

namespace Placed

variable {tokens : List Token} {s r : State}

theorem rests (h : Placed tokens s) (hr : Rests s r) : Placed tokens r := by
  refine ⟨?_, hr.assigned.symm ▸ h.targets⟩
  rw [hr.pending, hr.previous]
  exact h.place

theorem advance (h : Placed tokens s) : Placed tokens s.advance := by
  have hadv := s.rests_advance
  refine ⟨?_, hadv.assigned.symm ▸ h.targets⟩
  rw [hadv.pending, hadv.previous]
  rcases h.place with hnil | ⟨before, rest, htokens, hp, -⟩
  · exact Or.inl (by simp [hnil, clear])
  · cases hclear : clear rest with
    | nil => exact Or.inl (by rw [hp, hclear]; rfl)
    | cons t ts =>
        obtain ⟨skipped, hskipped⟩ := clear_suffix rest
        rw [hclear] at hskipped
        refine Or.inr ⟨before ++ skipped ++ [t], ts, ?_, by simp [hp, hclear], Or.inl ?_⟩
        · rw [htokens, ← hskipped]
          simp
        · simp [State.current, hp, hclear]

theorem expect (h : Placed tokens s) (what : Expectation) : Placed tokens (s.expect what) := by
  rw [State.expect]
  split
  · exact h.advance
  · exact h.rests (.report _ _ _)

theorem refuseTarget (h : Placed tokens s) (b : Bool) : Placed tokens (s.refuseTarget b) := by
  rw [State.refuseTarget]
  split
  · exact h.advance.rests (.report _ _ _)
  · exact h

/-- What is left is the end of the tokens, and no unexpected character is
ahead. -/
theorem suffix (h : Placed tokens s) (hne : s.pending ≠ []) :
    s.pending <:+ tokens ∧ Settled s.pending := by
  rcases h.place with hnil | ⟨before, rest, htokens, hp, -⟩
  · exact absurd hnil hne
  · rw [hp]
    exact ⟨(clear_suffix rest).trans ⟨before, htokens.symm⟩, settled_clear rest⟩

/-- The name that was taken last is a target if an assignment sign is ahead. -/
theorem target (h : Placed tokens s) (hk : s.previous.kind = .identifier)
    (he : s.ahead = .equal) : Target tokens s.previous.lexeme := by
  obtain ⟨sign, ts, hp, hsign⟩ := State.exists_of_ahead_eq he (by decide)
  rcases h.place with hnil | ⟨before, rest, htokens, hclear, hlast | ⟨-, hend⟩⟩
  · simp [hnil] at hp
  · obtain ⟨front, rfl⟩ := List.getLast?_eq_some_iff.mp hlast
    refine ⟨front, s.previous, rest, by simpa using htokens, hk, rfl, ?_⟩
    rw [← hclear, hp]
    exact hsign
  · exact absurd (hk.symm.trans hend) (by decide)

theorem bind {inputs : List String} {name : String} (h : Placed tokens s)
    (ht : Target tokens name) : Placed tokens (s.bind inputs name) := by
  rw [State.bind]
  split
  · exact h.rests (.emitAll _ _)
  · have hcode := h.rests (.emitAll s [.set name, .get name])
    refine ⟨hcode.place, fun n hn => ?_⟩
    rcases List.mem_cons.mp hn with rfl | hn
    · exact ht
    · exact hcode.targets n hn

end Placed

/-- What the rest of an operand asks of the state that it is read from. -/
def Part.Opened : Part → State → Prop
  | .operand o t _, s => t.kind.opening = some o ∧ s.previous = t
  | _, _ => True

theorem Reads.placed {inputs : List String} {tokens : List Token} {part : Part} {s r : State}
    {n : Nat} (h : Reads inputs part s r n) (hopened : part.Opened s) (hs : Placed tokens s) :
    Placed tokens r := by
  induction h with
  | missing => exact hs.advance.rests (.report _ _ _)
  | @opened level o s r q ho _ _ ih₁ ih₂ =>
      obtain ⟨t, ts, hp, hcur, ha⟩ := State.exists_of_ahead (ahead_ne_of_opening ho)
      have hopened₁ : (Part.operand o s.current (decide (level ≤ .assignment))).Opened s.advance :=
        ⟨by rw [hcur, ← ha, ho], s.rests_advance.previous⟩
      exact (ih₂ trivial (ih₁ hopened₁ hs.advance)).refuseTarget _
  | group _ ih => exact (ih trivial hs).expect _
  | unary _ ih => exact (ih trivial hs).rests (.emit _ _)
  | number => exact hs.rests (.number _ _)
  | @assign t s r he _ ih =>
      obtain ⟨ho, rfl⟩ := hopened
      have htarget := hs.target (opening_variable ho) he
      exact (ih trivial (hs.advance.rests (.check (.target _ _ _)))).bind htarget
  | call _ _ _ ih =>
      exact ((ih trivial (hs.rests (.emit _ _)).advance).rests (.check (.arity _ _ _ _))).rests
        (.emit _ _)
  | function => exact (hs.rests (.emit _ _)).rests (.report _ _ _)
  | @callOther t b s r argc _ _ _ ih =>
      have hget := (hs.rests (.check (.defined s inputs t))).rests (.emit _ (.get t.lexeme))
      exact (ih trivial (hget.advance.rests (.report _ _ _))).rests (.emit _ _)
  | name => exact (hs.rests (.check (.defined _ _ _))).rests (.emit _ _)
  | stop => exact hs
  | join _ _ _ _ ih₁ ih₂ => exact ih₂ trivial ((ih₁ trivial hs.advance).rests (.emitAll _ _))
  | noArguments => exact hs.expect _
  | arguments _ _ ih => exact (ih trivial hs).expect _
  | lastArgument _ _ ih => exact (ih trivial hs).rests (.check (.count _ _))
  | moreArguments _ _ _ ih₁ ih₂ =>
      exact ih₂ trivial ((ih₁ trivial hs).rests (.check (.count _ _))).advance

/-! ## Statements -/

theorem statement_placed (inputs : List String) {tokens : List Token} {s : State}
    (h : Placed tokens s) : Placed tokens (statement inputs s) :=
  (((reads_expression .assignment s).placed trivial h).expect _).rests (.emit _ _)

theorem skipStatement_placed {tokens : List Token} {s : State} (h : Placed tokens s) :
    Placed tokens s.skipStatement := by
  fun_induction State.skipStatement s with
  | case1 s => exact h
  | case2 s => exact h
  | case3 s _ _ ih => exact ih h.advance

theorem recoverIfPanicking_placed {tokens : List Token} {s : State} (h : Placed tokens s) :
    Placed tokens s.recoverIfPanicking := by
  rw [State.recoverIfPanicking, State.recover]
  split
  · exact skipStatement_placed ⟨h.place, h.targets⟩
  · exact h

/-! ## The start -/

theorem rests_start (source : String) :
    Rests ⟨Token.endOf source, clear (Token.scan source), Token.endOf source, false, [], #[], #[]⟩
      (State.start [] (Token.scan source) (Token.endOf source)) :=
  State.rests_settle ⟨Token.endOf source, [], Token.endOf source, false, [], #[], #[]⟩
    (Token.scan source)

theorem placed_start (source : String) :
    Placed (Token.scan source) (State.start [] (Token.scan source) (Token.endOf source)) := by
  have h := rests_start source
  refine ⟨Or.inr ⟨[], _, rfl, h.pending, Or.inr ⟨rfl, ?_⟩⟩, by simp [h.assigned]⟩
  rw [h.previous]
  rfl

end Pixelwise.Compiler
