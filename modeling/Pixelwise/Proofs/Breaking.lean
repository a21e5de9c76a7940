/-
Breaking off — statements that end where an operand must follow.

`Breaks rest level ts ms` says that reading `ts` comes to `rest`, which opens
with a semicolon, while an operand is asked for; `ms` is what was said of
names until then.  The relations follow those of `Climbs`: all that is
complete before the semicolon is read as a tree, and the last thing is not.

The compiler takes the semicolon for the operand that it misses, and from
then on it panics.  Main statement: `Breaks.goes`, that it comes to this
wherever the tokens break off.
-/
import Pixelwise.Proofs.Trees

namespace Pixelwise.Syntax

open Compiler

/-! ## Where statements break off -/

mutual

/-- The tokens come to `rest`, where an operand must follow. -/
inductive Breaks (rest : List Token) : Precedence → List Token → List Mention → Prop
  | here {level : Precedence} : kindAhead rest = .semicolon → Breaks rest level rest []
  | operand {level : Precedence} {ts : List Token} {ms : List Mention} :
      BreaksOperand rest (decide (level ≤ .assignment)) ts ms → Breaks rest level ts ms
  | operators {level : Precedence} {ts mid : List Token} {first : Expr} {ms : List Mention} :
      Opens (decide (level ≤ .assignment)) ts first mid → first.Narrow maxArguments →
      BreaksOperators rest level mid ms → Breaks rest level ts (first.mentions ++ ms)

/-- The tokens break off within the operand that they open with. -/
inductive BreaksOperand (rest : List Token) : Bool → List Token → List Mention → Prop
  | group {b : Bool} {opening : Token} {ts : List Token} {ms : List Mention} :
      opening.kind = .leftParen → Breaks rest .assignment ts ms →
      BreaksOperand rest b (opening :: ts) ms
  | call {b : Bool} {callee opening : Token} {ts : List Token} {ms : List Mention} :
      callee.kind = .identifier → opening.kind = .leftParen → BreaksArguments rest 0 ts ms →
      BreaksOperand rest b (callee :: opening :: ts) (.opened callee :: ms)
  | unary {b : Bool} {sign : Token} {op : UnaryOp} {ts : List Token} {ms : List Mention} :
      sign.kind.opening = some (.unary op) → Breaks rest .unary ts ms →
      BreaksOperand rest b (sign :: ts) ms
  | assign {target sign : Token} {ts : List Token} {ms : List Mention} :
      target.kind = .identifier → sign.kind = .equal → Breaks rest .assignment ts ms →
      BreaksOperand rest true (target :: sign :: ts) (.target target :: ms)

/-- The tokens break off among operators and their right operands. -/
inductive BreaksOperators (rest : List Token) : Precedence → List Token → List Mention → Prop
  | operand {level : Precedence} {sign : Token} {op : Operator} {ts : List Token}
      {ms : List Mention} :
      sign.kind.operator = some op → level ≤ op.precedence →
      Breaks rest op.precedence.next ts ms → BreaksOperators rest level (sign :: ts) ms
  | more {level : Precedence} {sign : Token} {op : Operator} {ts mid : List Token}
      {right : Expr} {ms : List Mention} :
      sign.kind.operator = some op → level ≤ op.precedence →
      Climbs op.precedence.next ts right mid → right.Narrow maxArguments →
      BreaksOperators rest level mid ms →
      BreaksOperators rest level (sign :: ts) (right.mentions ++ ms)

/-- The tokens break off among the arguments of a call, of which `count` are
complete. -/
inductive BreaksArguments (rest : List Token) : Nat → List Token → List Mention → Prop
  | argument {count : Nat} {ts : List Token} {ms : List Mention} :
      Breaks rest .assignment ts ms → BreaksArguments rest count ts ms
  | more {count : Nat} {ts mid : List Token} {comma : Token} {e : Expr} {ms : List Mention} :
      Climbs .assignment ts e (comma :: mid) → e.Narrow maxArguments → comma.kind = .comma →
      count < maxArguments → BreaksArguments rest (count + 1) mid ms →
      BreaksArguments rest count ts (e.mentions ++ ms)

end

variable {rest : List Token}

theorem BreaksOperand.opening {b : Bool} {ts : List Token} {ms : List Mention} :
    BreaksOperand rest b ts ms → (kindAhead ts).opening.isSome
  | .group h _ | .call h _ _ | .assign h _ _ => by simp [h, Token.Kind.opening]
  | .unary h _ => by simp [h]

/-- Tokens that break off open with an operand or with the semicolon. -/
theorem Breaks.ahead {level : Precedence} {ts : List Token} {ms : List Mention} :
    Breaks rest level ts ms → kindAhead ts = .semicolon ∨ (kindAhead ts).opening.isSome
  | .here h => Or.inl h
  | .operand h => Or.inr h.opening
  | .operators h _ _ => Or.inr h.opening

theorem BreaksArguments.ahead {count : Nat} {ts : List Token} {ms : List Mention} :
    BreaksArguments rest count ts ms →
      kindAhead ts = .semicolon ∨ (kindAhead ts).opening.isSome
  | .argument h => h.ahead
  | .more h _ _ _ _ => Or.inr h.opening

theorem BreaksOperators.operator {level : Precedence} {ts : List Token} {ms : List Mention} :
    BreaksOperators rest level ts ms → ∃ op, (kindAhead ts).operator = some op
  | .operand h _ _ | .more h _ _ _ _ => ⟨_, h⟩

theorem settled_of_semicolon {ts : List Token} (h : kindAhead ts = .semicolon) : Settled ts :=
  (congrArg Token.Kind.isUnexpected h).trans rfl

theorem settled_of_ahead {ts : List Token}
    (h : kindAhead ts = .semicolon ∨ (kindAhead ts).opening.isSome) : Settled ts :=
  h.elim settled_of_semicolon settled_of_opening

end Pixelwise.Syntax

namespace Pixelwise.Compiler

open Syntax

/-- Take the token ahead for an operand, and report that none is there. -/
def State.missOperand (s : State) : State :=
  s.advance.report s.current .expectedExpression

theorem expression_of_missing (inputs : List String) (level : Precedence) {s : State}
    (h : s.ahead.opening = none) : expression inputs level s = s.missOperand := by
  rw [expression_eq, h]
  rfl

end Pixelwise.Compiler

namespace Pixelwise.Syntax

open Compiler

variable {rest : List Token} (inputs : List String)

/-! ## The compiler comes to where tokens break off -/

mutual

/-- Where the tokens break off, the semicolon is taken for an operand. -/
theorem Breaks.goes :
    ∀ {level : Precedence} {ts : List Token} {ms : List Mention}, Breaks rest level ts ms →
      ∀ s : State, s.pending = ts → s.panicking = false → Readable ts →
        ∃ code last, Goes (s.after inputs ms code last rest).missOperand
          (expression inputs level s)
  | level, _, _, .here h => by
      intro s hp _ _
      have hnone : s.ahead.opening = none := by rw [State.ahead_eq, hp, h]; rfl
      refine ⟨[], s.previous, ?_⟩
      rw [← hp, ← s.eq_after inputs, expression_of_missing inputs level hnone]
      exact .refl _
  | level, _, _, .operand h => by
      intro s hp hs hread
      obtain ⟨o, hopen, code, last, hgoes⟩ := h.goes s hp hs hread
      refine ⟨code, last, ?_⟩
      rw [Compiler.expression_eq, hopen]
      exact (hgoes.trans (operators_goes inputs level _)).trans (.refuseTarget _ _)
  | level, _, _, @Breaks.operators _ _ _ mid first _ ho hn hops => by
      intro s hp hs hread
      obtain ⟨op, hop⟩ := hops.operator
      have hne : kindAhead mid ≠ .equal := fun e => by simp [e, Token.Kind.operator] at hop
      obtain ⟨o, hopen, hoperand⟩ :=
        ho.operand_eq inputs s hp hs hread hn (settled_of_operator hop) fun _ => hne
      have hgoes := operand_goes inputs o s.current (decide (level ≤ .assignment)) s.advance
      rw [hoperand] at hgoes
      have hmid : Readable mid := hread.suffix (hp ▸ ((Goes.advance s).trans hgoes).pending)
      obtain ⟨code, last, hops⟩ :=
        hops.goes (s.after inputs first.mentions first.code first.last mid) rfl hs hmid
      refine ⟨first.code ++ code, last, ?_⟩
      rw [State.after_after] at hops
      rw [Compiler.expression_eq, hopen]
      simp only [hoperand]
      exact hops.trans (.refuseTarget _ _)

theorem BreaksOperand.goes :
    ∀ {b : Bool} {ts : List Token} {ms : List Mention}, BreaksOperand rest b ts ms →
      ∀ s : State, s.pending = ts → s.panicking = false → Readable ts →
        ∃ o, s.ahead.opening = some o ∧
          ∃ code last, Goes (s.after inputs ms code last rest).missOperand
            (operand inputs o s.current b s.advance)
  | b, _, _, @BreaksOperand.group _ _ opening ts _ h hb => by
      intro s hp hs hread
      obtain ⟨code, last, hgoes⟩ := hb.goes (s.after inputs [] [] opening ts) rfl hs
        (hread.suffix (List.suffix_cons _ _))
      refine ⟨.grouping, by rw [State.ahead_of_pending hp, h]; rfl, code, last, ?_⟩
      rw [State.advance_eq_after inputs hp (settled_of_ahead hb.ahead), operand_grouping]
      rw [State.after_after] at hgoes
      exact hgoes.trans (.expect _ _)
  | b, _, _, @BreaksOperand.unary _ _ sign op ts _ h hb => by
      intro s hp hs hread
      obtain ⟨code, last, hgoes⟩ := hb.goes (s.after inputs [] [] sign ts) rfl hs
        (hread.suffix (List.suffix_cons _ _))
      refine ⟨.unary op, by rw [State.ahead_of_pending hp, h], code, last, ?_⟩
      rw [State.advance_eq_after inputs hp (settled_of_ahead hb.ahead), operand_unary]
      rw [State.after_after] at hgoes
      exact hgoes.trans (.emit _ _)
  | _, _, _, @BreaksOperand.assign _ target sign ts _ h hk hb => by
      intro s hp hs hread
      obtain ⟨code, last, hgoes⟩ := hb.goes (s.after inputs [.target target] [] sign ts) rfl hs
        (hread.suffix ((List.suffix_cons _ _).trans (List.suffix_cons _ _)))
      refine ⟨.variable, by rw [State.ahead_of_pending hp, h]; rfl, code, last, ?_⟩
      rw [operand_assign inputs hs hp hk (settled_of_ahead hb.ahead)]
      rw [State.after_after] at hgoes
      exact hgoes.trans (.bind _ _ _)
  | b, _, _, @BreaksOperand.call _ _ callee opening ts ms h ho ha => by
      intro s hp hs hread
      have hts : Settled ts := settled_of_ahead ha.ahead
      have hparen : kindAhead ts ≠ .rightParen := by
        intro e
        simpa [e, Token.Kind.opening] using ha.ahead
      obtain ⟨code, last, hgoes⟩ := ha.goes
        (s.after inputs [.opened callee] [(.get callee.lexeme, callee.line)] opening ts) rfl hs
        (hread.suffix ((List.suffix_cons _ _).trans (List.suffix_cons _ _)))
      rw [State.after_after] at hgoes
      have hargs : Goes (s.after inputs (.opened callee :: ms)
          ((.get callee.lexeme, callee.line) :: code) last rest).missOperand
          (arguments inputs (s.after inputs [.opened callee] [(.get callee.lexeme, callee.line)]
            opening ts)).1 := by
        rw [Compiler.arguments_eq, State.after_ahead, if_neg hparen]
        exact hgoes.trans (.expect _ _)
      refine ⟨.variable, by rw [State.ahead_of_pending hp, h]; rfl,
        (.get callee.lexeme, callee.line) :: code, last, ?_⟩
      rw [operand_call inputs hs hp ho hts]
      cases Builtin.ofName? callee.lexeme with
      | some f => exact (hargs.trans (.check (.arity _ _ _ _))).trans (.emit _ _)
      | none => exact hargs.trans (.emit _ _)

theorem BreaksOperators.goes :
    ∀ {level : Precedence} {ts : List Token} {ms : List Mention},
      BreaksOperators rest level ts ms →
      ∀ s : State, s.pending = ts → s.panicking = false → Readable ts →
        ∃ code last, Goes (s.after inputs ms code last rest).missOperand
          (operators inputs level s)
  | level, _, _, @BreaksOperators.operand _ _ sign op ts _ ho hle hb => by
      intro s hp hs hread
      obtain ⟨code, last, hgoes⟩ := hb.goes (s.after inputs [] [] sign ts) rfl hs
        (hread.suffix (List.suffix_cons _ _))
      refine ⟨code, last, ?_⟩
      rw [Compiler.operators_eq, State.ahead_of_pending hp, ho]
      simp only [if_pos hle]
      rw [State.advance_eq_after inputs hp (settled_of_ahead hb.ahead)]
      rw [State.after_after] at hgoes
      exact (hgoes.trans (.emitAll _ _)).trans (operators_goes inputs level _)
  | level, _, _, @BreaksOperators.more _ _ sign op ts mid right _ ho hle hc hn hops => by
      intro s hp hs hread
      obtain ⟨op', hop⟩ := hops.operator
      have hne : kindAhead mid ≠ .equal := fun e => by simp [e, Token.Kind.operator] at hop
      have hreadts : Readable ts := hread.suffix (List.suffix_cons _ _)
      have hright := hc.expression_eq inputs (s.after inputs [] [] sign ts) rfl hs hreadts hn
        (settled_of_operator hop) fun _ => hne
      have hgoes := expression_goes inputs op.precedence.next (s.after inputs [] [] sign ts)
      rw [hright] at hgoes
      have hmid : Readable mid := hreadts.suffix hgoes.pending
      obtain ⟨code, last, hops⟩ := hops.goes (s.after inputs right.mentions
        (right.code ++ op.code.map fun i => (i, right.last.line)) right.last mid) rfl hs hmid
      rw [State.after_after] at hops
      refine ⟨right.code ++ (op.code.map fun i => (i, right.last.line)) ++ code, last, ?_⟩
      rw [Compiler.operators_eq, State.ahead_of_pending hp, ho]
      simp only [if_pos hle]
      rw [State.advance_eq_after inputs hp hc.settled, hright, State.emitAll_eq_after _ inputs]
      simpa using hops

theorem BreaksArguments.goes :
    ∀ {count : Nat} {ts : List Token} {ms : List Mention}, BreaksArguments rest count ts ms →
      ∀ s : State, s.pending = ts → s.panicking = false → Readable ts →
        ∃ code last, Goes (s.after inputs ms code last rest).missOperand
          (argument inputs count s).1
  | count, _, _, .argument hb => by
      intro s hp hs hread
      obtain ⟨code, last, hgoes⟩ := hb.goes s hp hs hread
      have hcount := hgoes.trans (.check (.count _ count))
      refine ⟨code, last, ?_⟩
      rw [Compiler.argument_eq]
      split
      · exact (hcount.trans (.advance _)).trans (argument_goes inputs _ _)
      · exact hcount
  | count, ts, _, @BreaksArguments.more _ _ _ mid comma e _ hc hn hk hlt ha => by
      intro s hp hs hread
      have he := hc.expression_eq inputs s hp hs hread hn (settled_of_kind hk rfl)
        fun _ => by simp [hk]
      have hgoes := expression_goes inputs .assignment s
      rw [he] at hgoes
      have hmid : Readable mid :=
        hread.suffix ((List.suffix_cons comma mid).trans (hp ▸ hgoes.pending))
      obtain ⟨code, last, hargs⟩ := ha.goes (s.after inputs e.mentions e.code comma mid) rfl hs hmid
      rw [State.after_after] at hargs
      refine ⟨e.code ++ code, last, ?_⟩
      rw [Compiler.argument_eq, he, State.checkCount_eq hlt, State.after_ahead, kindAhead_cons,
        if_pos hk, State.advance_eq_after inputs (State.after_pending ..)
          (settled_of_ahead ha.ahead), State.after_after]
      simp only [List.append_nil]
      exact hargs

end

end Pixelwise.Syntax
