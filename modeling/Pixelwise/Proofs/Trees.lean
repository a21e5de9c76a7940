/-
Trees are read — what the compiler does with tokens that make up a tree.

Whatever tree the tokens ahead open with, the compiler comes to the state
after that tree, with its code and all that is wrong with its names
(`Climbs.expression_eq`).  Three things are asked for: that the compiler is
calm, that no call is longer than calls can be, and that what follows is a
token of the language and no assignment sign.
-/
import Pixelwise.Proofs.Calm

namespace Pixelwise.Compiler

open Syntax

/-! ## Steps that find what they ask for -/

namespace State

variable {s : State}

theorem expect_eq_after (inputs : List String) {what : Expectation} {closing : Token}
    {rest : List Token} (hp : s.pending = closing :: rest) (hk : closing.kind = what.kind)
    (hr : Settled rest) : s.expect what = s.after inputs [] [] closing rest := by
  rw [expect]
  rw [if_pos (by rw [ahead_eq, hp]; exact hk), advance_eq_after inputs hp hr]

theorem refuseTarget_eq {b : Bool} (h : b = true → s.ahead ≠ .equal) : s.refuseTarget b = s :=
  if_neg fun hb => h hb.1 hb.2

theorem checkCount_eq {count : Nat} (h : count < maxArguments) : s.checkCount count = s :=
  if_neg (Nat.ne_of_lt h)

theorem ahead_of_pending {t : Token} {ts : List Token} (hp : s.pending = t :: ts) :
    s.ahead = t.kind := by
  simp [ahead, hp]

theorem current_of_pending {t : Token} {ts : List Token} (hp : s.pending = t :: ts) :
    s.current = t := by
  simp [current, hp]

end State

theorem settled_of_kind {t : Token} {ts : List Token} {kind : Token.Kind} (h : t.kind = kind)
    (hk : kind.isUnexpected = false) : Settled (t :: ts) :=
  (congrArg Token.Kind.isUnexpected h).trans hk

/-! ## Operands that open with a name -/

section

variable {s : State} {t next : Token} {ts : List Token}

/-- The value of an assignment is read from the state that has seen its
target. -/
theorem operand_assign (inputs : List String) (hs : s.panicking = false)
    (hp : s.pending = t :: next :: ts) (hk : next.kind = .equal) (hts : Settled ts) :
    operand inputs .variable s.current true s.advance =
      (expression inputs .assignment (s.after inputs [.target t] [] next ts)).bind inputs
        t.lexeme := by
  have htarget : (s.after inputs [] [] t (next :: ts)).advance.checkTarget inputs t =
      s.after inputs [.target t] [] next ts := by
    rw [State.advance_eq_after inputs (State.after_pending ..) hts,
      State.checkTarget_eq_after (by exact hs)]
    simp
  rw [State.current_of_pending hp, State.advance_eq_after inputs hp (settled_of_kind hk rfl),
    operand_variable, if_pos (by simp [hk]), htarget]

/-- The arguments of a call are read from the state that has seen its name. -/
theorem operand_call (inputs : List String) (hs : s.panicking = false)
    (hp : s.pending = t :: next :: ts) (hk : next.kind = .leftParen) (hts : Settled ts)
    (b : Bool) :
    operand inputs .variable s.current b s.advance =
      match arguments inputs (s.after inputs [.opened t] [(.get t.lexeme, t.line)] next ts),
        Builtin.ofName? t.lexeme with
      | (r, argc), some f => (r.checkArity t f argc).emit (.call argc)
      | (r, argc), none => r.emit (.call argc) := by
  rw [State.current_of_pending hp, State.advance_eq_after inputs hp (settled_of_kind hk rfl),
    operand_variable, if_neg (by simp [hk])]
  cases hf : Builtin.ofName? t.lexeme with
  | some f =>
      have hopened : ((s.after inputs [] [] t (next :: ts)).emit (.get t.lexeme)).advance =
          s.after inputs [.opened t] [(.get t.lexeme, t.line)] next ts := by
        rw [State.opened_eq_after inputs (by simp [isLibrary, hf]), State.after_after,
          State.after_pending, State.advance_eq_after inputs (State.after_pending ..) hts]
        simp
      simp only [State.after_ahead, kindAhead_cons, if_pos hk, hopened]
  | none =>
      have hopened : (((s.after inputs [] [] t (next :: ts)).checkDefined inputs t).emit
          (.get t.lexeme)).advance.report t .notCallable =
          s.after inputs [.opened t] [(.get t.lexeme, t.line)] next ts := by
        rw [State.openedOther_eq_after (by exact hs) (by simp [isLibrary, hf])
          (State.after_pending ..) hts]
        simp
      simp only [State.after_ahead, kindAhead_cons, if_pos hk, hopened]

end

end Pixelwise.Compiler

namespace Pixelwise.Syntax

open Compiler

variable {inputs : List String}

/-! ## Parts of trees -/

theorem Chains.settled {level : Precedence} {left e : Expr} {ts rest : List Token}
    (h : Chains level left ts e rest) (hr : Settled rest) : Settled ts := by
  cases h with
  | done => exact hr
  | more ho => exact settled_of_operator ho

theorem Chains.noEqual {level : Precedence} {left e : Expr} {ts rest : List Token}
    (h : Chains level left ts e rest) (hr : kindAhead rest ≠ .equal) : kindAhead ts ≠ .equal := by
  cases h with
  | done => exact hr
  | more ho =>
      intro he
      rw [kindAhead_cons] at he
      simp [he, Token.Kind.operator] at ho

theorem Chains.narrow {limit : Nat} :
    ∀ {level : Precedence} {left : Expr} {ts : List Token} {e : Expr} {rest : List Token},
      Chains level left ts e rest → e.Narrow limit → left.Narrow limit
  | _, _, _, _, _, .done _, hn => hn
  | _, _, _, _, _, .more _ _ _ hc, hn => (hc.narrow hn).1

theorem Climbs.settled {level : Precedence} {ts rest : List Token} {e : Expr}
    (h : Climbs level ts e rest) : Settled ts :=
  settled_of_opening h.opening

theorem Passes.eq_of_nil {ts rest : List Token} (h : Passes ts [] rest) : ts = rest := by
  cases h
  rfl

theorem Passes.opening {ts rest : List Token} {es : List Expr} (h : Passes ts es rest)
    (hes : es ≠ []) : (kindAhead ts).opening.isSome := by
  cases h with
  | none => exact absurd rfl hes
  | one hc | more hc => exact hc.opening

/-- Arguments up to their closing parenthesis are read if their list is. -/
theorem Passes.arguments_eq {s : State} {ts rest : List Token} {es : List Expr} {closing : Token}
    (h : Passes ts es (closing :: rest)) (hp : s.pending = ts) (hk : closing.kind = .rightParen)
    (hr : Settled rest)
    (hes : es ≠ [] → ∃ last, argument inputs 0 s =
      (s.after inputs (mentionsAll es) (codeAll es) last (closing :: rest), 0 + es.length)) :
    arguments inputs s =
      (s.after inputs (mentionsAll es) (codeAll es) closing rest, es.length) := by
  have hk' : closing.kind = Expectation.parenAfterArguments.kind := hk
  rw [Compiler.arguments_eq, State.ahead_eq, hp]
  by_cases hnil : es = []
  · subst hnil
    cases h.eq_of_nil
    rw [if_pos (by exact hk), State.expect_eq_after inputs hp hk' hr]
    rfl
  · obtain ⟨last, ha⟩ := hes hnil
    have hne : kindAhead ts ≠ .rightParen := by
      intro e
      simpa [e, Token.Kind.opening] using h.opening hnil
    rw [if_neg hne, ha, State.expect_eq_after inputs (State.after_pending ..) hk' hr]
    simp

/-! ## The compiler reads every tree -/

variable (inputs)

mutual

theorem Climbs.expression_eq :
    ∀ {level : Precedence} {ts : List Token} {e : Expr} {rest : List Token},
      Climbs level ts e rest → ∀ s : State, s.pending = ts → s.panicking = false →
        Readable ts → e.Narrow maxArguments → Settled rest →
        (level ≤ .assignment → kindAhead rest ≠ .equal) →
        expression inputs level s = s.after inputs e.mentions e.code e.last rest
  | level, _, _, _, .intro ho hc => by
      intro s hp hs hread hn hr he
      obtain ⟨o, hopen, hop⟩ := ho.operand_eq s hp hs hread (hc.narrow hn) (hc.settled hr)
        fun hb => hc.noEqual (he (of_decide_eq_true hb))
      have hgoes := operand_goes inputs o s.current (decide (level ≤ .assignment)) s.advance
      rw [hop] at hgoes
      have hmid := hread.suffix (hp ▸ ((Goes.advance s).trans hgoes).pending)
      rw [Compiler.expression_eq, hopen]
      simp only [hop, hc.operators_eq s hs hmid hn hr]
      exact State.refuseTarget_eq fun hb => by simpa using he (of_decide_eq_true hb)

theorem Opens.operand_eq :
    ∀ {b : Bool} {ts : List Token} {e : Expr} {rest : List Token}, Opens b ts e rest →
      ∀ s : State, s.pending = ts → s.panicking = false → Readable ts →
        e.Narrow maxArguments → Settled rest → (b = true → kindAhead rest ≠ .equal) →
        ∃ o, s.ahead.opening = some o ∧
          operand inputs o s.current b s.advance =
            s.after inputs e.mentions e.code e.last rest
  | b, _, _, rest, @Opens.number _ t _ h => by
      intro s hp hs hread hn hr _
      refine ⟨.number, by rw [State.ahead_of_pending hp, h]; rfl, ?_⟩
      rw [State.current_of_pending hp, State.advance_eq_after inputs hp hr, operand_number,
        State.number_eq_after _ inputs (hread t List.mem_cons_self h)]
      simp [Expr.mentions, Expr.code, Expr.last]
  | b, _, _, rest, @Opens.name _ t _ h he hparen => by
      intro s hp hs hread hn hr _
      refine ⟨.variable, by rw [State.ahead_of_pending hp, h]; rfl, ?_⟩
      rw [State.current_of_pending hp, State.advance_eq_after inputs hp hr, operand_variable,
        if_neg (by simpa using he)]
      cases hf : Builtin.ofName? t.lexeme with
      | some f =>
          simp only [State.after_ahead, if_neg hparen]
          rw [State.function_eq_after inputs (by exact hs) (by simp [isLibrary, hf])]
          simp [Expr.mentions, Expr.code, Expr.last]
      | none =>
          simp only [State.after_ahead, if_neg hparen]
          rw [State.name_eq_after (by exact hs) (by simp [isLibrary, hf])]
          simp [Expr.mentions, Expr.code, Expr.last]
  | b, _, _, rest, @Opens.group _ opening closing ts _ inner h hi hk => by
      intro s hp hs hread hn hr _
      have inner := hi.expression_eq (s.after inputs [] [] opening ts) rfl hs
        (hread.suffix (List.suffix_cons _ _)) hn (settled_of_kind hk rfl) fun _ => by simp [hk]
      refine ⟨.grouping, by rw [State.ahead_of_pending hp, h]; rfl, ?_⟩
      rw [State.advance_eq_after inputs hp hi.settled, operand_grouping, inner,
        State.expect_eq_after inputs (State.after_pending ..) hk hr]
      simp [Expr.mentions, Expr.code, Expr.last]
  | b, _, _, rest, @Opens.call _ callee opening closing ts _ args h ho ha hk => by
      intro s hp hs hread hn hr _
      have hts : Settled ts := by
        by_cases hnil : args = []
        · subst hnil
          cases ha.eq_of_nil
          exact settled_of_kind hk rfl
        · exact settled_of_opening (ha.opening hnil)
      have hreadts : Readable ts :=
        hread.suffix ((List.suffix_cons _ _).trans (List.suffix_cons _ _))
      refine ⟨.variable, by rw [State.ahead_of_pending hp, h]; rfl, ?_⟩
      have hargs : arguments inputs (s.after inputs [.opened callee]
            [(.get callee.lexeme, callee.line)] opening ts) =
          (s.after inputs (.opened callee :: mentionsAll args)
            ((.get callee.lexeme, callee.line) :: codeAll args) closing rest, args.length) := by
        rw [ha.arguments_eq (State.after_pending ..) hk hr fun hne =>
          ha.argument_eq (State.after ..) 0 (State.after_pending ..) hs hreadts hn.2 hk hne
            (by simpa using hn.1)]
        simp
      rw [operand_call inputs hs hp ho hts, hargs]
      cases hf : Builtin.ofName? callee.lexeme with
      | some f =>
          simp only
          rw [State.closed_eq_after inputs (by exact hs) hf, State.emit_eq_after _ inputs]
          simp [Expr.mentions, Expr.code, Expr.last]
      | none =>
          simp only
          rw [State.closedOther_eq_after (State.after ..) inputs hf args.length,
            State.emit_eq_after _ inputs]
          simp [Expr.mentions, Expr.code, Expr.last]
  | b, _, _, rest, @Opens.unary _ sign op ts _ operand h hi => by
      intro s hp hs hread hn hr _
      have inner := hi.expression_eq (s.after inputs [] [] sign ts) rfl hs
        (hread.suffix (List.suffix_cons _ _)) hn hr fun hle => absurd hle (by decide)
      refine ⟨.unary op, by rw [State.ahead_of_pending hp, h], ?_⟩
      rw [State.advance_eq_after inputs hp hi.settled, operand_unary, inner,
        State.emit_eq_after _ inputs]
      simp [Expr.mentions, Expr.code, Expr.last]
  | _, _, _, rest, @Opens.assign target sign ts _ value h hk hi => by
      intro s hp hs hread hn hr he
      have inner := hi.expression_eq (s.after inputs [.target target] [] sign ts) rfl hs
        (hread.suffix ((List.suffix_cons _ _).trans (List.suffix_cons _ _))) hn hr
        fun _ => he rfl
      refine ⟨.variable, by rw [State.ahead_of_pending hp, h]; rfl, ?_⟩
      rw [operand_assign inputs hs hp hk hi.settled, inner,
        State.bind_eq_after value.last.line rfl]
      simp [Expr.mentions, Expr.code, Expr.last]

theorem Chains.operators_eq :
    ∀ {level : Precedence} {left : Expr} {ts : List Token} {e : Expr} {rest : List Token},
      Chains level left ts e rest → ∀ s : State, s.panicking = false → Readable ts →
        e.Narrow maxArguments → Settled rest →
        operators inputs level (s.after inputs left.mentions left.code left.last ts) =
          s.after inputs e.mentions e.code e.last rest
  | level, left, _, _, rest, .done h => by
      intro s hs hread hn hr
      rw [Compiler.operators_eq, State.after_ahead]
      cases ho : (kindAhead rest).operator with
      | none => rfl
      | some op => simp only [if_neg (h op ho)]
  | level, left, _, _, rest, @Chains.more _ sign op ts mid _ _ right e ho hle hr hc => by
      intro s hs hread hn hrest
      have inner := hr.expression_eq
        (s.after inputs left.mentions left.code sign ts) rfl hs
        (hread.suffix (List.suffix_cons _ _)) (hc.narrow hn).2 (hc.settled hrest)
        fun h => absurd h (next_not_assignment op)
      have hgoes := expression_goes inputs op.precedence.next
        (s.after inputs left.mentions left.code sign ts)
      rw [inner] at hgoes
      have hmid : Readable mid := hread.suffix (hgoes.pending.trans (List.suffix_cons _ _))
      rw [Compiler.operators_eq, State.after_ahead, kindAhead_cons, ho]
      simp only [if_pos hle]
      rw [State.advance_eq_after inputs (State.after_pending ..) hr.settled, State.after_after]
      simp only [List.append_nil]
      rw [inner, State.emitAll_eq_after _ inputs]
      have := hc.operators_eq s hs hmid hn hrest
      simpa [Expr.mentions, Expr.code, Expr.last] using this

theorem Passes.argument_eq :
    ∀ {ts : List Token} {es : List Expr} {rest : List Token}, Passes ts es rest →
      ∀ (s : State) (count : Nat), s.pending = ts → s.panicking = false → Readable ts →
        AllNarrow maxArguments es → kindAhead rest = .rightParen → es ≠ [] →
        count + es.length ≤ maxArguments →
        ∃ last, argument inputs count s =
          (s.after inputs (mentionsAll es) (codeAll es) last rest, count + es.length)
  | _, _, _, .none _ => fun _ _ _ _ _ _ _ hne _ => absurd rfl hne
  | ts, _, rest, @Passes.one _ _ e hc hk => by
      intro s count hp hs hread hn hr _ hle
      have hsettled : Settled rest := by rw [Settled, hr]; rfl
      have inner := hc.expression_eq s hp hs hread hn.1 hsettled fun _ => by simp [hr]
      refine ⟨e.last, ?_⟩
      rw [Compiler.argument_eq, inner, State.checkCount_eq (by exact hle), State.after_ahead,
        if_neg hk, Nat.min_eq_left (by exact hle)]
      simp [mentionsAll, codeAll]
  | ts, _, rest, @Passes.more _ mid _ comma e f es hc hk hm => by
      intro s count hp hs hread hn hr _ hle
      simp only [List.length_cons] at hle
      have hmid : Settled mid := settled_of_opening (hm.opening (by simp))
      have inner := hc.expression_eq s hp hs hread hn.1 (settled_of_kind hk rfl)
        fun _ => by simp [hk]
      have hgoes := expression_goes inputs .assignment s
      rw [inner] at hgoes
      have hreadmid : Readable mid :=
        hread.suffix ((List.suffix_cons comma mid).trans (hp ▸ hgoes.pending))
      obtain ⟨last, ha⟩ := hm.argument_eq (s.after inputs e.mentions e.code comma mid) (count + 1)
        rfl hs hreadmid hn.2 hr (by simp) (by simp only [List.length_cons]; omega)
      refine ⟨last, ?_⟩
      rw [Compiler.argument_eq, inner, State.checkCount_eq (by omega), State.after_ahead,
        kindAhead_cons, if_pos hk, State.advance_eq_after inputs (State.after_pending ..) hmid,
        State.after_after]
      simp only [List.append_nil]
      rw [ha]
      simp only [mentionsAll, codeAll, State.after_after, List.length_cons, Prod.mk.injEq, true_and]
      omega

end

end Pixelwise.Syntax
