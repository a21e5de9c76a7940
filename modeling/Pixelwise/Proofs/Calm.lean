/-
Calm readings — what the compiler does while it does not panic.

As long as all goes well in form, reading tokens adds to the state what the
tree that they make up says: its code, its mentions of names and what is
wrong with them (`State.after`).

Main statements: `Reads.builds`, that a reading which ends calm has read a
tree; and `Climbs.expression_eq`, that the compiler reads every tree that
the tokens open with, if no call in it is too long.
-/
import Pixelwise.Proofs.Naming
import Pixelwise.Proofs.Reading

namespace Pixelwise.Compiler

open Syntax

/-- The state after tokens were read that mention names and come to code:
`last` was taken last, and `rest` is left. -/
def State.after (s : State) (inputs : List String) (ms : List Mention)
    (code : List (Instruction × Nat)) (last : Token) (rest : List Token) : State :=
  { s with
    previous := last
    pending := rest
    assigned := assignedAfter inputs s.assigned ms
    diagnostics := s.diagnostics ++ (diagnose inputs s.assigned ms).toArray
    emitted := s.emitted ++ code.toArray }

namespace State

section

variable (s : State) (inputs : List String) (ms ms' : List Mention)
  (code code' : List (Instruction × Nat)) (last last' : Token) (rest rest' : List Token)

@[simp] theorem after_previous : (s.after inputs ms code last rest).previous = last := rfl

@[simp] theorem after_pending : (s.after inputs ms code last rest).pending = rest := rfl

@[simp] theorem after_panicking :
    (s.after inputs ms code last rest).panicking = s.panicking := rfl

@[simp] theorem after_ahead : (s.after inputs ms code last rest).ahead = kindAhead rest :=
  ahead_eq _

/-- What is read in two parts adds up. -/
@[simp] theorem after_after :
    (s.after inputs ms code last rest).after inputs ms' code' last' rest' =
      s.after inputs (ms ++ ms') (code ++ code') last' rest' := by
  simp [after, Array.append_assoc, List.append_toArray]

theorem eq_after : s = s.after inputs [] [] s.previous s.pending := by
  simp [after]

theorem emit_eq_after (i : Instruction) :
    s.emit i = s.after inputs [] [(i, s.previous.line)] s.previous s.pending := by
  simp [emit, after]

theorem emitAll_eq_after (is : List Instruction) :
    s.emitAll is =
      s.after inputs [] (is.map fun i => (i, s.previous.line)) s.previous s.pending := by
  rw [emitAll]
  induction is generalizing s with
  | nil => exact s.eq_after inputs
  | cons i rest ih => rw [List.foldl_cons, ih, s.emit_eq_after inputs]; simp

end

variable {s : State} {inputs : List String} {t : Token} {rest : List Token}

theorem advance_eq_after (inputs : List String) (hp : s.pending = t :: rest) (h : Settled rest) :
    s.advance = s.after inputs [] [] t rest := by
  simp [advance_of_settled hp h, after]

/-! ## What the steps say of names -/

theorem checkTarget_eq_after (h : s.panicking = false) :
    s.checkTarget inputs t = s.after inputs [.target t] [] s.previous s.pending := by
  rw [checkTarget]
  by_cases hl : isLibrary t
  · rw [if_pos (show (Builtin.ofName? t.lexeme).isSome = true from hl)]
    rw [report_other h rfl]
    simp [after, Mention.problems, Mention.assign, hl, at']
  · rw [if_neg (show ¬ (Builtin.ofName? t.lexeme).isSome = true from hl)]
    by_cases hi : t.lexeme ∈ inputs
    · rw [if_pos hi, report_other h rfl]
      simp [after, Mention.problems, Mention.assign, hl, hi, at']
    · simp [after, Mention.problems, Mention.assign, hl, hi]

theorem bind_eq_after (line : Nat) (hline : s.previous.line = line) :
    s.bind inputs t.lexeme =
      s.after inputs [.assigned t] [(.set t.lexeme, line), (.get t.lexeme, line)] s.previous
        s.pending := by
  rw [bind]
  rw [s.emitAll_eq_after inputs]
  by_cases hl : isLibrary t ∨ t.lexeme ∈ inputs
  · have hb : ((Builtin.ofName? t.lexeme).isSome || decide (t.lexeme ∈ inputs)) = true := by
      simpa [isLibrary] using hl
    simp [hb, after, Mention.assign, Mention.problems, hl, hline]
  · have hb : ((Builtin.ofName? t.lexeme).isSome || decide (t.lexeme ∈ inputs)) = false := by
      simpa [isLibrary] using hl
    simp [hb, assign, after, Mention.assign, Mention.problems, hl, hline]

theorem checkDefined_eq (h : s.panicking = false) :
    s.checkDefined inputs t =
      { s with diagnostics := s.diagnostics ++ (undefined inputs s.assigned t).toArray } := by
  rw [checkDefined, undefined]
  by_cases hd : t.lexeme ∈ inputs ∨ t.lexeme ∈ s.assigned
  · simp [hd]
  · rw [report_other h rfl]
    simp [hd, at']

/-- A name that is read without a call. -/
theorem function_eq_after (inputs : List String) (h : s.panicking = false) (hl : isLibrary t) :
    (s.emit (.get t.lexeme)).report t (.functionNotCalled t.lexeme) =
      s.after inputs [.read t] [(.get t.lexeme, s.previous.line)] s.previous s.pending := by
  rw [report_other (by exact h) rfl]
  simp [emit, after, Mention.problems, Mention.assign, hl, at']

theorem name_eq_after (h : s.panicking = false) (hl : ¬ isLibrary t) :
    (s.checkDefined inputs t).emit (.get t.lexeme) =
      s.after inputs [.read t] [(.get t.lexeme, s.previous.line)] s.previous s.pending := by
  simp [checkDefined_eq h, emit, after, Mention.problems, Mention.assign, hl]

/-- A name that is called. -/
theorem opened_eq_after (inputs : List String) (hl : isLibrary t) :
    s.emit (.get t.lexeme) =
      s.after inputs [.opened t] [(.get t.lexeme, s.previous.line)] s.previous s.pending := by
  simp [emit, after, Mention.problems, Mention.assign, hl]

theorem openedOther_eq_after (h : s.panicking = false) (hl : ¬ isLibrary t) {opening : Token}
    (hp : s.pending = opening :: rest) (hr : Settled rest) :
    ((s.checkDefined inputs t).emit (.get t.lexeme)).advance.report t .notCallable =
      s.after inputs [.opened t] [(.get t.lexeme, s.previous.line)] opening rest := by
  rw [checkDefined_eq h, advance_of_settled (by exact hp) hr, report_other (by exact h) rfl]
  simp [emit, after, Mention.problems, Mention.assign, hl, at']

theorem closed_eq_after (inputs : List String) {f : Builtin} (h : s.panicking = false)
    (hf : Builtin.ofName? t.lexeme = some f) (argc : Nat) :
    s.checkArity t f argc = s.after inputs [.closed t argc] [] s.previous s.pending := by
  rw [checkArity]
  by_cases ha : argc = f.arity
  · simp [ha, after, Mention.problems, Mention.assign, hf]
  · rw [if_neg ha, report_other h rfl]
    simp [ha, after, Mention.problems, Mention.assign, hf, at']

theorem closedOther_eq_after (s : State) (inputs : List String)
    (hf : Builtin.ofName? t.lexeme = none) (argc : Nat) :
    s = s.after inputs [.closed t argc] [] s.previous s.pending := by
  simp [after, Mention.problems, Mention.assign, hf]

/-! ## Steps that end calm -/

theorem report_calm {p : Problem} (hp : p.isSyntax = true) :
    ¬ (s.report t p).panicking = false := by
  rw [report]
  split <;> simp_all

theorem expect_calm (inputs : List String) {what : Expectation}
    (h : (s.expect what).panicking = false) :
    ∃ closing rest, s.pending = closing :: rest ∧ closing.kind = what.kind ∧ Settled rest ∧
      s.expect what = s.after inputs [] [] closing rest := by
  rw [expect] at h ⊢
  by_cases ha : s.ahead = what.kind
  · rw [if_pos ha] at h ⊢
    obtain ⟨closing, rest, hp, hk⟩ :=
      exists_of_ahead_eq ha (by cases what <;> decide)
    obtain ⟨-, hr, -⟩ := advance_calm h hp
    exact ⟨closing, rest, hp, hk, hr, advance_eq_after inputs hp hr⟩
  · rw [if_neg ha] at h
    exact absurd h (report_calm rfl)

theorem refuseTarget_calm {b : Bool} (h : (s.refuseTarget b).panicking = false) :
    s.refuseTarget b = s := by
  rw [refuseTarget] at h ⊢
  by_cases hb : b = true ∧ s.ahead = .equal
  · rw [if_pos hb] at h
    exact absurd h (report_calm rfl)
  · rw [if_neg hb]

theorem checkCount_calm {count : Nat} (h : (s.checkCount count).panicking = false) :
    s.checkCount count = s ∧ count ≠ maxArguments := by
  rw [checkCount] at h ⊢
  by_cases hc : count = maxArguments
  · rw [if_pos hc] at h
    exact absurd h (report_calm rfl)
  · exact ⟨if_neg hc, hc⟩

end State

/-! ## A reading that ends calm has read a tree -/

/-- Every number token reads as a number. -/
def Readable (ts : List Token) : Prop :=
  ∀ t ∈ ts, t.kind = .number → (Decimal.read? t.lexeme).isSome

theorem opening_grouping {kind : Token.Kind} (h : kind.opening = some .grouping) :
    kind = .leftParen := by
  cases kind <;> simp_all [Token.Kind.opening]

theorem opening_number {kind : Token.Kind} (h : kind.opening = some .number) :
    kind = .number := by
  cases kind <;> simp_all [Token.Kind.opening]

theorem opening_variable {kind : Token.Kind} (h : kind.opening = some .variable) :
    kind = .identifier := by
  cases kind <;> simp_all [Token.Kind.opening]

theorem Readable.suffix {ts us : List Token} (h : Readable ts) (hs : us <:+ ts) : Readable us :=
  fun t ht => h t (hs.subset ht)

theorem State.number_eq_after (s : State) (inputs : List String) {t : Token}
    (h : (Decimal.read? t.lexeme).isSome) :
    s.number t =
      s.after inputs [] [(.constant (literal t), s.previous.line)] s.previous s.pending := by
  obtain ⟨x, hx⟩ := Option.isSome_iff_exists.mp h
  simp [State.number, hx, literal, emit, after]

/-- What a part has read if it ends calm. -/
def Part.Builds (inputs : List String) : Part → State → State → Nat → Prop
  | .expression level, s, r, _ =>
    ∃ e rest, Climbs level s.pending e rest ∧ e.Narrow maxArguments ∧
      r = s.after inputs e.mentions e.code e.last rest
  | .operand o t b, s, r, _ =>
    t.kind.opening = some o → s.previous = t → Readable (t :: s.pending) →
      ∃ e rest, Opens b (t :: s.pending) e rest ∧ e.Narrow maxArguments ∧
        r = s.after inputs e.mentions e.code e.last rest
  | .operators level, s, r, _ =>
    ∀ (origin : State) (left : Expr), left.Narrow maxArguments →
      s = origin.after inputs left.mentions left.code left.last s.pending →
      ∃ e rest, Chains level left s.pending e rest ∧ e.Narrow maxArguments ∧
        r = origin.after inputs e.mentions e.code e.last rest
  | .arguments, s, r, n =>
    ∃ es closing rest, Passes s.pending es (closing :: rest) ∧ closing.kind = .rightParen ∧
      (n ≤ maxArguments ∧ AllNarrow maxArguments es) ∧
      r = s.after inputs (mentionsAll es) (codeAll es) closing rest ∧ n = es.length
  | .argument count, s, r, n =>
    ∃ e es last rest, Passes s.pending (e :: es) rest ∧ AllNarrow maxArguments (e :: es) ∧
      r = s.after inputs (mentionsAll (e :: es)) (codeAll (e :: es)) last rest ∧
      (count ≤ maxArguments → n ≤ maxArguments ∧ n = count + (e :: es).length)

variable {inputs : List String}

theorem Reads.builds {part : Part} {s r : State} {n : Nat} (h : Reads inputs part s r n)
    (hr : r.panicking = false) (hread : Readable s.pending) : part.Builds inputs s r n := by
  induction h with
  | missing h => exact absurd hr (State.report_calm rfl)
  | @opened level o s r q ho h₁ h₂ ih₁ ih₂ =>
      have hq := State.refuseTarget_calm hr
      rw [hq] at hr ⊢
      have hcr := h₂.goes.calm hr
      obtain ⟨t, ts, hp, hc, ha⟩ := State.exists_of_ahead (ahead_ne_of_opening ho)
      obtain ⟨-, hts, -⟩ := State.advance_calm (h₁.goes.calm hcr) hp
      have hadv := State.advance_eq_after inputs hp hts
      rw [hadv, hc] at ih₁
      obtain ⟨first, mid, hopens, hnarrow, hr₁⟩ :=
        ih₁ hcr (hread.suffix (hp ▸ List.suffix_cons t ts)) (ha ▸ ho) rfl (hp ▸ hread)
      have hmid : Readable r.pending := hread.suffix ((Goes.advance s).trans h₁.goes).pending
      obtain ⟨e, rest, hchain, hn, hq₁⟩ := ih₂ hr hmid s first hnarrow (by simp [hr₁])
      refine ⟨e, rest, ?_, hn, hq₁⟩
      rw [hr₁] at hchain
      exact hp ▸ .intro hopens hchain
  | group _ ih =>
      intro ho _ _
      obtain ⟨closing, rest, hp, hk, -, he⟩ := State.expect_calm inputs hr
      obtain ⟨inner, mid, hc, hn, hr₁⟩ := ih ((Goes.expect _ _).calm hr) hread
      rw [hr₁, State.after_pending] at hp
      refine ⟨.group inner closing, rest, .group (opening_grouping ho) (hp ▸ hc) hk, hn, ?_⟩
      rw [he, hr₁]
      simp [Expr.mentions, Expr.code, Expr.last]
  | @unary op t b s r h ih =>
      intro ho _ _
      obtain ⟨operand, mid, hc, hn, hr₁⟩ := ih ((Goes.emit _ _).calm hr) hread
      refine ⟨.unary op operand, mid, .unary ho hc, hn, ?_⟩
      rw [State.emit_eq_after _ inputs, hr₁]
      simp [Expr.mentions, Expr.code, Expr.last]
  | @number t b s =>
      intro ho hprev hreads
      have hk := opening_number ho
      refine ⟨.number t, s.pending, .number hk, trivial, ?_⟩
      rw [State.number_eq_after _ inputs (hreads t List.mem_cons_self hk), hprev]
      simp [Expr.mentions, Expr.code, Expr.last]
  | @assign t s r he h ih =>
      intro ho _ _
      have hcr := (Goes.bind _ _ _).calm hr
      have hct := h.goes.calm hcr
      obtain ⟨sign, ts, hp, hkind⟩ := State.exists_of_ahead_eq he (by decide)
      obtain ⟨hs, hts, -⟩ := State.advance_calm ((Goes.check (.target _ _ _)).calm hct) hp
      have hadv : s.advance.checkTarget inputs t = s.after inputs [.target t] [] sign ts := by
        rw [State.checkTarget_eq_after ((Goes.check (.target _ _ _)).calm hct),
          State.advance_eq_after inputs hp hts]
        simp
      rw [hadv] at ih
      obtain ⟨value, rest, hc, hn, hr₁⟩ :=
        ih hcr (hread.suffix (hp ▸ List.suffix_cons sign ts))
      refine ⟨.assign t value, rest, ?_, hn, ?_⟩
      · exact hp ▸ .assign (opening_variable ho) hkind hc
      · rw [State.bind_eq_after _ rfl, hr₁]
        simp [Expr.mentions, Expr.code, Expr.last]
  | @call t b f s r argc hf he h ih =>
      intro ho hprev _
      have hcr := (Goes.check (.arity _ _ _ _)).calm ((Goes.emit _ _).calm hr)
      have hl : isLibrary t := by simp [isLibrary, hf]
      rw [State.opened_eq_after inputs hl] at h ih
      obtain ⟨opening, ts, hp, hkind⟩ := State.exists_of_ahead_eq he (by decide)
      obtain ⟨-, hts, -⟩ := State.advance_calm (h.goes.calm hcr) hp
      rw [State.advance_eq_after inputs (by exact hp) hts] at ih
      obtain ⟨args, closing, rest, hpass, hk, hn, hr₁, rfl⟩ :=
        ih hcr (hread.suffix (hp ▸ List.suffix_cons opening ts))
      refine ⟨.call t args closing, rest, ?_, hn, ?_⟩
      · exact hp ▸ .call (opening_variable ho) hkind hpass hk
      · rw [State.emit_eq_after _ inputs, State.closed_eq_after inputs hcr hf, hr₁]
        simp [Expr.mentions, Expr.code, Expr.last, hprev]
  | @function t b f s he hf hp =>
      intro ho hprev _
      have hs := (Goes.emit _ _).calm ((Goes.report _ _ _).calm hr)
      refine ⟨.name t, s.pending, ?_, trivial, ?_⟩
      · rw [State.ahead_eq] at he hp
        exact .name (opening_variable ho) he hp
      · rw [State.function_eq_after inputs hs (by simp [isLibrary, hf]), hprev]
        simp [Expr.mentions, Expr.code, Expr.last]
  | @callOther t b s r argc hf he h ih =>
      intro ho hprev _
      have hcr := (Goes.emit _ _).calm hr
      have hca := (Goes.report _ _ _).calm (h.goes.calm hcr)
      have hdefined := (Goes.emit _ _).calm ((Goes.advance _).calm hca)
      have hs := (Goes.check (.defined _ _ _)).calm hdefined
      have hl : ¬ isLibrary t := by simp [isLibrary, hf]
      obtain ⟨opening, ts, hp, hkind⟩ := State.exists_of_ahead_eq he (by decide)
      obtain ⟨-, hts, -⟩ := State.advance_calm hca (by simpa using hp)
      rw [State.openedOther_eq_after hs hl hp hts] at ih
      obtain ⟨args, closing, rest, hpass, hk, hn, hr₁, rfl⟩ :=
        ih hcr (hread.suffix (hp ▸ List.suffix_cons opening ts))
      refine ⟨.call t args closing, rest, ?_, hn, ?_⟩
      · exact hp ▸ .call (opening_variable ho) hkind hpass hk
      · rw [State.closedOther_eq_after r inputs hf args.length,
          State.emit_eq_after _ inputs, hr₁]
        simp [Expr.mentions, Expr.code, Expr.last, hprev]
  | @name t b s he hf hp =>
      intro ho hprev _
      have hs := (Goes.check (.defined _ _ _)).calm ((Goes.emit _ _).calm hr)
      refine ⟨.name t, s.pending, ?_, trivial, ?_⟩
      · rw [State.ahead_eq] at he hp
        exact .name (opening_variable ho) he hp
      · rw [State.name_eq_after hs (by simp [isLibrary, hf]), hprev]
        simp [Expr.mentions, Expr.code, Expr.last]
  | stop h =>
      intro origin left hn hs
      rw [State.ahead_eq] at h
      exact ⟨left, _, .done h, hn, hs⟩
  | @join level op s r q ho hle h₁ h₂ ih₁ ih₂ =>
      intro origin left hleft hs
      have hcr := (Goes.emitAll _ _).calm (h₂.goes.calm hr)
      obtain ⟨sign, ts, hp, -, ha⟩ := State.exists_of_ahead (ahead_ne_of_operator ho)
      obtain ⟨-, hts, -⟩ := State.advance_calm (h₁.goes.calm hcr) hp
      have hreadts : Readable ts := hread.suffix (hp ▸ List.suffix_cons sign ts)
      rw [State.advance_eq_after inputs hp hts] at ih₁
      obtain ⟨right, mid, hc, hright, hr₁⟩ := ih₁ hcr hreadts
      have hmid : Readable r.pending := hread.suffix ((Goes.advance s).trans h₁.goes).pending
      obtain ⟨e, rest, hchain, hn, hq⟩ :=
        ih₂ hr (by simpa using hmid) origin (.binary op left right) ⟨hleft, hright⟩ (by
          rw [State.emitAll_eq_after _ inputs, hr₁, hs]
          simp [Expr.mentions, Expr.code, Expr.last])
      refine ⟨e, rest, ?_, hn, hq⟩
      rw [hr₁] at hchain
      rw [hp]
      exact .more (ha ▸ ho) hle hc (by simpa using hchain)
  | @noArguments s h =>
      obtain ⟨closing, rest, hp, hk, -, he⟩ := State.expect_calm inputs hr
      refine ⟨[], closing, rest, ?_, hk, ⟨Nat.zero_le _, trivial⟩, ?_, rfl⟩
      · rw [hp]
        exact .none hk
      · simpa [mentionsAll, codeAll] using he
  | @arguments s r argc h _ ih =>
      obtain ⟨closing, rest, hp, hk, -, he⟩ := State.expect_calm inputs hr
      obtain ⟨e, es, last, mid, hpass, hall, hr₁, hn⟩ := ih ((Goes.expect _ _).calm hr) hread
      obtain ⟨hle, hn⟩ := hn (Nat.zero_le _)
      rw [hr₁, State.after_pending] at hp
      refine ⟨e :: es, closing, rest, hp ▸ hpass, hk, ⟨hle, hall⟩, ?_, ?_⟩
      · rw [he, hr₁]
        simp
      · simpa using hn
  | @lastArgument count s r h hk ih =>
      obtain ⟨hr', hne⟩ := State.checkCount_calm hr
      rw [hr'] at hr hk ⊢
      obtain ⟨e, rest, hc, hn, hr₁⟩ := ih hr hread
      refine ⟨e, [], e.last, rest, .one hc ?_, ⟨hn, trivial⟩,
        by simpa [mentionsAll, codeAll] using hr₁, ?_⟩
      · rw [hr₁] at hk
        simpa using hk
      · intro hle
        exact ⟨Nat.min_le_right _ _, Nat.min_eq_left (Nat.lt_of_le_of_ne hle hne)⟩
  | @moreArguments count argc s r q h₁ hk h₂ ih₁ ih₂ =>
      have hcc := (Goes.advance _).calm (h₂.goes.calm hr)
      obtain ⟨hr', hne⟩ := State.checkCount_calm hcc
      rw [hr'] at hcc hk h₂ ih₂
      obtain ⟨e, mid, hc, hnarrow, hr₁⟩ := ih₁ hcc hread
      obtain ⟨comma, ts, hp, hkind⟩ := State.exists_of_ahead_eq hk (by decide)
      obtain ⟨-, hts, -⟩ := State.advance_calm (h₂.goes.calm hr) hp
      have hreadts : Readable ts := by
        have hpending : ts <:+ r.pending := hp ▸ List.suffix_cons comma ts
        exact hread.suffix (hpending.trans h₁.goes.pending)
      rw [State.advance_eq_after inputs hp hts] at ih₂
      obtain ⟨f, es, last, rest, hpass, hall, hq, hn⟩ := ih₂ hr hreadts
      rw [hr₁, State.after_pending] at hp
      refine ⟨e, f :: es, last, rest, .more (hp ▸ hc) hkind hpass, ⟨hnarrow, hall⟩, ?_, ?_⟩
      · rw [hq, hr₁]
        simp [mentionsAll, codeAll]
      · intro hle
        obtain ⟨hmax, hn⟩ := hn (Nat.lt_of_le_of_ne hle hne)
        refine ⟨hmax, ?_⟩
        rw [hn, List.length_cons, List.length_cons, List.length_cons]
        omega

end Pixelwise.Compiler
