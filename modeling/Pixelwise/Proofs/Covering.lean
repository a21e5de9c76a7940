/-
Covering — how far the compiler reads, in whatever mood.

A compiler that panics takes the same tokens as a calm one, so it covers the
tokens of a tree in any mood, and however long the calls in it are.  A
derivable statement may end in panic, if a call in it is too long; but then
its semicolon has been taken, and recovery has nothing to skip.

Main statements: `Climbs.covers`; and `begins_behind`, that behind a program
a round begins.
-/
import Pixelwise.Proofs.Rounds

namespace Pixelwise.Compiler

open Syntax

namespace State

variable {s : State} {t : Token} {rest : List Token}

theorem pending_advance (hp : s.pending = t :: rest) (hr : Settled rest) :
    s.advance.pending = rest := by
  rw [advance_of_settled hp hr]

theorem pending_expect {what : Expectation} (hp : s.pending = t :: rest)
    (hk : t.kind = what.kind) (hr : Settled rest) : (s.expect what).pending = rest := by
  rw [expect, if_pos (by rw [ahead_of_pending hp]; exact hk), pending_advance hp hr]

end State

end Pixelwise.Compiler

namespace Pixelwise.Syntax

open Compiler

variable (inputs : List String)

/-! ## Trees -/

/-- A list of arguments is covered up to its closing parenthesis if its
arguments are. -/
theorem Passes.arguments_covers {s : State} {ts rest : List Token} {es : List Expr}
    {closing : Token} (h : Passes ts es (closing :: rest)) (hp : s.pending = ts)
    (hk : closing.kind = .rightParen) (hr : Settled rest)
    (hes : es ≠ [] → (argument inputs 0 s).1.pending = closing :: rest) :
    (arguments inputs s).1.pending = rest := by
  have hk' : closing.kind = Expectation.parenAfterArguments.kind := hk
  rw [Compiler.arguments_eq, State.ahead_eq, hp]
  by_cases hnil : es = []
  · subst hnil
    cases h.eq_of_nil
    rw [if_pos (by exact hk)]
    exact State.pending_expect hp hk' hr
  · have hne : kindAhead ts ≠ .rightParen := by
      intro e
      simpa [e, Token.Kind.opening] using h.opening hnil
    rw [if_neg hne]
    exact State.pending_expect (hes hnil) hk' hr

mutual

/-- The tokens of an expression are taken in any mood. -/
theorem Climbs.covers :
    ∀ {level : Precedence} {ts : List Token} {e : Expr} {rest : List Token},
      Climbs level ts e rest → ∀ s : State, s.pending = ts → Settled rest →
        (level ≤ .assignment → kindAhead rest ≠ .equal) →
        (expression inputs level s).pending = rest
  | level, _, _, rest, .intro ho hc => by
      intro s hp hr he
      obtain ⟨o, hopen, hop⟩ := ho.covers s hp (hc.settled hr)
        fun hb => hc.noEqual (he (of_decide_eq_true hb))
      have hops := hc.covers _ hop hr
      rw [Compiler.expression_eq, hopen]
      simp only
      rw [State.refuseTarget_eq fun hb => ?_]
      · exact hops
      · rw [State.ahead_eq, hops]
        exact he (of_decide_eq_true hb)

theorem Opens.covers :
    ∀ {b : Bool} {ts : List Token} {e : Expr} {rest : List Token}, Opens b ts e rest →
      ∀ s : State, s.pending = ts → Settled rest → (b = true → kindAhead rest ≠ .equal) →
        ∃ o, s.ahead.opening = some o ∧
          (operand inputs o s.current b s.advance).pending = rest
  | b, _, _, rest, @Opens.number _ t _ h => by
      intro s hp hr _
      refine ⟨.number, by rw [State.ahead_of_pending hp, h]; rfl, ?_⟩
      rw [operand_number, State.pending_number, State.pending_advance hp hr]
  | b, _, _, rest, @Opens.name _ t _ h he hparen => by
      intro s hp hr _
      have hadv := State.pending_advance hp hr
      refine ⟨.variable, by rw [State.ahead_of_pending hp, h]; rfl, ?_⟩
      rw [operand_variable, State.ahead_eq, hadv, if_neg he]
      cases Builtin.ofName? s.current.lexeme with
      | some f => simp [hparen, hadv]
      | none => simp [hparen, hadv]
  | b, _, _, rest, @Opens.group _ opening closing ts _ inner h hi hk => by
      intro s hp hr _
      have hinner := hi.covers s.advance (State.pending_advance hp hi.settled)
        (settled_of_kind hk rfl) fun _ => by simp [hk]
      refine ⟨.grouping, by rw [State.ahead_of_pending hp, h]; rfl, ?_⟩
      rw [operand_grouping]
      exact State.pending_expect hinner hk hr
  | b, _, _, rest, @Opens.call _ callee opening closing ts _ args h ho ha hk => by
      intro s hp hr _
      have hts : Settled ts := by
        by_cases hnil : args = []
        · subst hnil
          cases ha.eq_of_nil
          exact settled_of_kind hk rfl
        · exact settled_of_opening (ha.opening hnil)
      have hadv : s.advance.pending = opening :: ts :=
        State.pending_advance hp (settled_of_kind ho rfl)
      have hparen : s.advance.ahead = .leftParen := (State.ahead_of_pending hadv).trans ho
      have hargs : ∀ u : State, u.pending = ts → (arguments inputs u).1.pending = rest :=
        fun u hu => ha.arguments_covers inputs hu hk hr fun hne => ha.covers u 0 hu hk hne
      refine ⟨.variable, by rw [State.ahead_of_pending hp, h]; rfl, ?_⟩
      rw [operand_variable, hparen, if_neg (by simp)]
      cases Builtin.ofName? s.current.lexeme with
      | some f =>
          simp only [if_true, State.pending_emit, State.pending_checkArity]
          exact hargs _ (State.pending_advance (by exact hadv) hts)
      | none =>
          simp only [if_true, State.pending_emit]
          refine hargs _ ?_
          rw [State.pending_report]
          exact State.pending_advance (by simpa using hadv) hts
  | b, _, _, rest, @Opens.unary _ sign op ts _ operand h hi => by
      intro s hp hr _
      have hinner := hi.covers s.advance (State.pending_advance hp hi.settled) hr
        fun hle => absurd hle (by decide)
      refine ⟨.unary op, by rw [State.ahead_of_pending hp, h], ?_⟩
      rw [operand_unary, State.pending_emit, hinner]
  | _, _, _, rest, @Opens.assign target sign ts _ value h hk hi => by
      intro s hp hr he
      have hadv : s.advance.pending = sign :: ts :=
        State.pending_advance hp (settled_of_kind hk rfl)
      have hsign : s.advance.ahead = .equal := (State.ahead_of_pending hadv).trans hk
      have hinner := hi.covers (s.advance.advance.checkTarget inputs s.current)
        (by rw [State.pending_checkTarget, State.pending_advance hadv hi.settled]) hr
        fun _ => he rfl
      refine ⟨.variable, by rw [State.ahead_of_pending hp, h]; rfl, ?_⟩
      rw [operand_variable, if_pos ⟨rfl, hsign⟩, State.pending_bind, hinner]

theorem Chains.covers :
    ∀ {level : Precedence} {left : Expr} {ts : List Token} {e : Expr} {rest : List Token},
      Chains level left ts e rest → ∀ s : State, s.pending = ts → Settled rest →
        (operators inputs level s).pending = rest
  | level, _, _, _, rest, .done h => by
      intro s hp hr
      rw [Compiler.operators_eq, State.ahead_eq, hp]
      cases ho : (kindAhead rest).operator with
      | none => exact hp
      | some op =>
          simp only [if_neg (h op ho)]
          exact hp
  | level, _, _, _, rest, @Chains.more _ sign op ts mid _ _ right e ho hle hr hc => by
      intro s hp hrest
      have hright := hr.covers s.advance (State.pending_advance hp hr.settled)
        (hc.settled hrest) fun h => absurd h (next_not_assignment op)
      rw [Compiler.operators_eq, State.ahead_of_pending hp, ho]
      simp only [if_pos hle]
      exact hc.covers _ (by rw [State.pending_emitAll, hright]) hrest

theorem Passes.covers :
    ∀ {ts : List Token} {es : List Expr} {rest : List Token}, Passes ts es rest →
      ∀ (s : State) (count : Nat), s.pending = ts → kindAhead rest = .rightParen → es ≠ [] →
        (argument inputs count s).1.pending = rest
  | _, _, _, .none _ => fun _ _ _ _ hne => absurd rfl hne
  | ts, _, rest, @Passes.one _ _ e hc hk => by
      intro s count hp hr _
      have hsettled : Settled rest := by rw [Settled, hr]; rfl
      have hvalue := hc.covers s hp hsettled fun _ => by simp [hr]
      have hahead : ((expression inputs .assignment s).checkCount count).ahead ≠ .comma := by
        rw [State.ahead_eq, State.pending_checkCount, hvalue]
        exact hk
      rw [Compiler.argument_eq, if_neg hahead, State.pending_checkCount, hvalue]
  | ts, _, rest, @Passes.more _ mid _ comma e f es hc hk hm => by
      intro s count hp hr _
      have hmid : Settled mid := settled_of_opening (hm.opening (by simp))
      have hvalue := hc.covers s hp (settled_of_kind hk rfl) fun _ => by simp [hk]
      have hpending : ((expression inputs .assignment s).checkCount count).pending =
          comma :: mid := by
        rw [State.pending_checkCount, hvalue]
      rw [Compiler.argument_eq, State.ahead_of_pending hpending, if_pos hk]
      exact hm.covers _ (count + 1) (State.pending_advance hpending hmid) hr (by simp)

end

end Pixelwise.Syntax

namespace Pixelwise.Compiler

open Syntax Token

variable {inputs : List String} {source : String}

/-! ## Statements -/

/-- A round that begins at a derivable statement ends calmly behind its
semicolon, if the next token is one of the language. -/
theorem round_covers {s : State} {ts rest : List Token} {semicolon : Token} {e : Expr}
    (he : Derives .assignment ts e) (hk : semicolon.kind = .semicolon) (hr : Settled rest)
    (hp : s.pending = ts ++ semicolon :: rest) :
    (round inputs s).pending = rest ∧ (round inputs s).panicking = false := by
  have hc := he.climbs (continues_of_closing rest (Or.inr (Or.inr hk)))
  have hexp := hc.covers inputs s hp (settled_of_kind hk rfl) fun _ => by simp [hk]
  have hstatement := statement_of_semicolon hexp hk
  have hpending : (statement inputs s).pending = rest := by
    rw [hstatement]
    exact State.pending_advance hexp hr
  have hprevious : (statement inputs s).previous.kind = .semicolon := by
    rw [hstatement]
    show (expression inputs .assignment s).advance.previous.kind = _
    rw [(State.rests_advance _).previous, State.current_of_pending hexp, hk]
  rw [round, State.recoverIfPanicking, State.recover]
  split
  · rw [skip_stop (by exact hprevious)]
    exact ⟨hpending, rfl⟩
  · rename_i hcalm
    exact ⟨hpending, Bool.eq_false_iff.mpr hcalm⟩

/-- Behind a program a round begins calmly, if the next token is one of the
language. -/
theorem begins_behind {before rest : List Token} {program : List Statement}
    (hprogram : DerivesProgram before program) (hr : Settled rest)
    (hsource : scan source = before ++ rest) :
    ∃ s, Begins inputs source s ∧ s.panicking = false ∧ s.pending = rest := by
  have key : ∀ {ts : List Token} {p : List Statement}, DerivesProgram ts p → ∀ s : State,
      Begins inputs source s → s.panicking = false → s.pending = ts ++ rest →
        ∃ r, Begins inputs source r ∧ r.panicking = false ∧ r.pending = rest := by
    intro ts p h
    induction h with
    | nil => exact fun s hs hcalm hp => ⟨s, hs, hcalm, hp⟩
    | @cons ts us semicolon e p he hk hus ih =>
        intro s hs _ hp
        have hsettled : Settled (us ++ rest) := settled_append (settled_of_program hus) hr
        rw [List.append_assoc, List.cons_append] at hp
        obtain ⟨hpending, hround⟩ := round_covers he hk hsettled hp
        exact ih _ (.next hs (by simp [hp])) hround hpending
  have hstart : Settled (before ++ rest) := settled_append (settled_of_program hprogram) hr
  refine key hprogram _ .refl ?_ ?_
  · rw [start_of_settled [] (hsource ▸ hstart)]
  · rw [start_of_settled [] (hsource ▸ hstart), hsource]

end Pixelwise.Compiler
