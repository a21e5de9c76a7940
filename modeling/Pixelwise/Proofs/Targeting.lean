/-
Targeting — which names a source can assign.

The compiler takes a name for a target only where an expression that may be
an assignment begins: at the beginning of a statement, in parentheses, as an
argument or as a value that is assigned.  The token before it tells
(`Kind.leads`).

Main statement: `assignee_of_assigned`, that all names that a compilation
ever counts as assigned stand in such places, with an assignment sign behind
them.
-/
import Pixelwise.Proofs.Rounds

namespace Pixelwise

/-- Behind such a token an assignment may stand. -/
def Token.Kind.leads : Token.Kind → Bool
  | .endOfInput | .semicolon | .leftParen | .comma | .equal => true
  | _ => false

namespace Compiler

open Syntax Token

/-- An assignment to the name stands in the tokens: where one may stand, the
name is followed by an assignment sign.  Unexpected characters between them
make no difference. -/
def Assignee (tokens : List Token) (name : String) : Prop :=
  ∃ before strays t rest, tokens = before ++ (strays ++ t :: rest) ∧
    (∀ u ∈ before.getLast?, u.kind.leads = true) ∧
    (∀ u ∈ strays, u.kind.isUnexpected = true) ∧
    t.kind = .identifier ∧ t.lexeme = name ∧ kindAhead (clear rest) = .equal

theorem Assignee.target {tokens : List Token} {name : String} (h : Assignee tokens name) :
    Target tokens name := by
  obtain ⟨before, strays, t, rest, htokens, -, -, hk, hname, he⟩ := h
  exact ⟨before ++ strays, t, rest, by rw [htokens, List.append_assoc], hk, hname, he⟩

/-- Without an assignment sign nothing is assigned. -/
theorem Assignee.exists_equal {tokens : List Token} {name : String} (h : Assignee tokens name) :
    ∃ sign ∈ tokens, sign.kind = .equal := by
  obtain ⟨before, strays, t, rest, rfl, -, -, -, -, he⟩ := h
  cases hclear : clear rest with
  | nil =>
      rw [hclear] at he
      cases he
  | cons sign ts =>
      rw [hclear] at he
      have hmem : sign ∈ rest := clear_mem (hclear ▸ List.mem_cons_self)
      exact ⟨sign, by simp [hmem], he⟩

/-- The state stands in `tokens`, and the names assigned so far are assigned
there. -/
structure Assigning (tokens : List Token) (s : State) : Prop where
  placed : Placed tokens s
  assigned : ∀ name ∈ s.assigned, Assignee tokens name

namespace Assigning

variable {tokens : List Token} {s r : State} {inputs : List String}

theorem rests (h : Assigning tokens s) (hr : Rests s r) : Assigning tokens r :=
  ⟨h.placed.rests hr, hr.assigned.symm ▸ h.assigned⟩

theorem advance (h : Assigning tokens s) : Assigning tokens s.advance :=
  ⟨h.placed.advance, s.rests_advance.assigned.symm ▸ h.assigned⟩

theorem expect (h : Assigning tokens s) (what : Expectation) :
    Assigning tokens (s.expect what) := by
  rw [State.expect]
  split
  · exact h.advance
  · exact h.rests (.report _ _ _)

theorem refuseTarget (h : Assigning tokens s) (b : Bool) : Assigning tokens (s.refuseTarget b) := by
  rw [State.refuseTarget]
  split
  · exact h.advance.rests (.report _ _ _)
  · exact h

/-- A name ahead, where an assignment may stand, is assigned if the sign
follows it. -/
theorem assignee (h : Assigning tokens s) (hleads : s.previous.kind.leads = true)
    (hk : s.ahead = .identifier) (he : s.advance.ahead = .equal) :
    Assignee tokens s.current.lexeme := by
  obtain ⟨t, ts, hp, hcur, ha⟩ := State.exists_of_ahead (s := s) (by simp [hk])
  rcases h.placed.place with hnil | ⟨before, rest, htokens, hclear, hlast⟩
  · simp [hnil] at hp
  · obtain ⟨strays, hstrays⟩ := clear_suffix rest
    have hunexpected : ∀ u ∈ strays, u.kind.isUnexpected = true := by
      have htake : strays = rest.takeWhile (·.kind.isUnexpected) := by
        have hall := List.takeWhile_append_dropWhile (p := (·.kind.isUnexpected)) (l := rest)
        exact List.append_cancel_right (hstrays.trans hall.symm)
      rw [htake]
      exact List.all_eq_true.mp List.all_takeWhile
    rw [State.ahead_eq, s.rests_advance.pending, hp, List.tail_cons] at he
    refine ⟨before, strays, t, ts, ?_, ?_, hunexpected, ha.symm.trans hk, by rw [hcur], he⟩
    · rw [htokens, ← hstrays, ← hclear, hp]
    · intro u hu
      rcases hlast with hlast | ⟨rfl, -⟩
      · rw [hlast] at hu
        cases hu
        exact hleads
      · cases hu

theorem bind {name : String} (h : Assigning tokens s) (hname : Assignee tokens name) :
    Assigning tokens (s.bind inputs name) := by
  refine ⟨h.placed.bind hname.target, fun n hn => ?_⟩
  have hcode := h.rests (.emitAll s [.set name, .get name])
  rw [State.bind] at hn
  split at hn
  · exact hcode.assigned n hn
  · rcases List.mem_cons.mp hn with rfl | hn
    · exact hname
    · exact hcode.assigned n hn

end Assigning

/-! ## Readings -/

/-- The token that was just taken leads if the one ahead did. -/
theorem leads_advance {s : State} (h : s.ahead.leads = true) (hne : s.ahead ≠ .endOfInput) :
    s.advance.previous.kind.leads = true := by
  obtain ⟨t, ts, hp, hcur, ha⟩ := State.exists_of_ahead hne
  rw [s.rests_advance.previous, hcur, ← ha]
  exact h

/-- Where a part is read: an expression that may be an assignment behind a
token that leads, and an operand whose name is assigned if the sign
follows. -/
def Part.Leads (tokens : List Token) : Part → State → Prop
  | .expression level, s => level ≤ .assignment → s.previous.kind.leads = true
  | .operand o t b, s =>
    t.kind.opening = some o ∧ s.previous = t ∧
      (b = true → o = .variable → s.ahead = .equal → Assignee tokens t.lexeme)
  | .operators _, _ => True
  | .arguments, s | .argument _, s => s.previous.kind.leads = true

theorem Reads.assigning {inputs : List String} {tokens : List Token} {part : Part} {s r : State}
    {n : Nat} (h : Reads inputs part s r n) (hleads : part.Leads tokens s)
    (hs : Assigning tokens s) : Assigning tokens r := by
  induction h with
  | missing => exact hs.advance.rests (.report _ _ _)
  | @opened level o s r q ho _ _ ih₁ ih₂ =>
      obtain ⟨t, ts, hp, hcur, ha⟩ := State.exists_of_ahead (ahead_ne_of_opening ho)
      have hleads₁ : (Part.operand o s.current (decide (level ≤ .assignment))).Leads tokens
          s.advance := by
        refine ⟨by rw [hcur, ← ha, ho], s.rests_advance.previous, ?_⟩
        rintro hb rfl he
        exact hs.assignee (hleads (of_decide_eq_true hb)) (opening_variable ho) he
      exact (ih₂ trivial (ih₁ hleads₁ hs.advance)).refuseTarget _
  | group _ ih =>
      obtain ⟨ho, hprev, -⟩ := hleads
      have hparen : Kind.leads .leftParen = true := rfl
      rw [← opening_grouping ho, ← hprev] at hparen
      exact (ih (fun _ => hparen) hs).expect _
  | unary _ ih =>
      exact (ih (fun hle => absurd hle (by decide)) hs).rests (.emit _ _)
  | number => exact hs.rests (.number _ _)
  | @assign t s r he _ ih =>
      obtain ⟨ho, hprev, hassignee⟩ := hleads
      have hchecked := Rests.check (.target s.advance inputs t)
      have hsign : (s.advance.checkTarget inputs t).previous.kind.leads = true := by
        rw [hchecked.previous]
        exact leads_advance (by rw [he]; rfl) (by simp [he])
      exact (ih (fun _ => hsign) (hs.advance.rests hchecked)).bind (hassignee rfl rfl he)
  | @call t b f s r argc _ he _ ih =>
      have hparen : (s.emit (.get t.lexeme)).advance.previous.kind.leads = true :=
        leads_advance (by rw [State.ahead_emit, he]; rfl) (by simp [he])
      have hargs := ih hparen (hs.rests (.emit _ _)).advance
      exact (hargs.rests (.check (.arity _ _ _ _))).rests (.emit _ _)
  | function => exact (hs.rests (.emit _ _)).rests (.report _ _ _)
  | @callOther t b s r argc _ he _ ih =>
      let named := (s.checkDefined inputs t).emit (.get t.lexeme)
      have hnamed : Assigning tokens named :=
        (hs.rests (.check (.defined s inputs t))).rests (.emit _ _)
      have hahead : named.ahead = .leftParen := by simpa [named] using he
      have hparen : (named.advance.report t .notCallable).previous.kind.leads = true := by
        rw [(Rests.report _ _ _).previous]
        exact leads_advance (by rw [hahead]; rfl) (by simp [hahead])
      exact (ih hparen (hnamed.advance.rests (.report _ _ _))).rests (.emit _ _)
  | name => exact (hs.rests (.check (.defined _ _ _))).rests (.emit _ _)
  | stop => exact hs
  | @join level op s r q _ _ _ _ ih₁ ih₂ =>
      have hright : Part.Leads tokens (.expression op.precedence.next) s.advance :=
        fun hle => absurd hle (next_not_assignment op)
      exact ih₂ trivial ((ih₁ hright hs.advance).rests (.emitAll _ _))
  | noArguments => exact hs.expect _
  | arguments _ _ ih => exact (ih hleads hs).expect _
  | lastArgument _ _ ih => exact (ih (fun _ => hleads) hs).rests (.check (.count _ _))
  | @moreArguments count argc s r q _ hk _ ih₁ ih₂ =>
      have hvalue := (ih₁ (fun _ => hleads) hs).rests (.check (.count r count))
      exact ih₂ (leads_advance (by rw [hk]; rfl) (by simp [hk])) hvalue.advance

/-! ## Compilations -/

variable {inputs : List String} {source : String}

/-- Where a round begins, an assignment may stand. -/
theorem Begins.leads {s : State} (h : Begins inputs source s) (hne : s.pending ≠ []) :
    s.previous.kind.leads = true := by
  cases h with
  | refl =>
      rw [(rests_start source).previous]
      rfl
  | @next u _ _ =>
      rw [(round_ends inputs u).resolve_left hne]
      rfl

theorem statement_assigning {tokens : List Token} {s : State}
    (hleads : s.previous.kind.leads = true) (hs : Assigning tokens s) :
    Assigning tokens (statement inputs s) :=
  (((reads_expression .assignment s).assigning (fun _ => hleads) hs).expect _).rests (.emit _ _)

theorem skipStatement_assigning {tokens : List Token} {s : State} (h : Assigning tokens s) :
    Assigning tokens s.skipStatement := by
  fun_induction State.skipStatement s with
  | case1 s => exact h
  | case2 s => exact h
  | case3 s _ _ ih => exact ih h.advance

theorem Begins.assigning {s : State} (h : Begins inputs source s) :
    Assigning (scan source) s := by
  induction h with
  | refl => exact ⟨placed_start source, by simp [(rests_start source).assigned]⟩
  | @next u hu hne ih =>
      have hstatement := @statement_assigning inputs _ _ (Begins.leads hu hne) ih
      rw [round, State.recoverIfPanicking, State.recover]
      split
      · exact skipStatement_assigning ⟨⟨hstatement.placed.place, hstatement.placed.targets⟩,
          hstatement.assigned⟩
      · exact hstatement

/-- Whatever a compilation counts as assigned is assigned in the source. -/
theorem assignee_of_assigned {s : State} (h : Begins inputs source s) (hne : s.pending ≠ [])
    {name : String} (hname : name ∈ (statement inputs s).assigned) :
    Assignee (scan source) name :=
  (statement_assigning (h.leads hne) h.assigning).assigned name hname

end Compiler

end Pixelwise
