/-
Recovery — what one round of the compiler reports.

A round reads a statement and, if that ended in panic, skips to the next
semicolon.  The tokens of a statement either make up an expression, break off
at the semicolon, or do neither; in the first two cases the semicolon is
taken calmly and an unexpected character right behind it is reported, in the
last all that is reported is in the statement.

Main statements: `statement_formed`, `statement_broken` and
`statement_within`, what reading a statement reports in the three cases;
`skip_stray` and `skip_clean`, what skipping reports; and
`new_statements_iff`, that the rounds report all there is.
-/
import Pixelwise.Proofs.Locating
import Pixelwise.Proofs.Placing
import Pixelwise.Proofs.Speaking
import Pixelwise.Proofs.Statements

namespace Pixelwise.Compiler

open Syntax

variable {s r q : State} {inputs : List String} {d : Diagnostic}

/-! ## New diagnostics -/

/-- The diagnostic was added from `s` to `r`. -/
def New (d : Diagnostic) (s r : State) : Prop :=
  ∃ ds : Array Diagnostic, r.diagnostics = s.diagnostics ++ ds ∧ d ∈ ds

theorem new_iff {ds : Array Diagnostic} (h : r.diagnostics = s.diagnostics ++ ds) :
    New d s r ↔ d ∈ ds := by
  constructor
  · rintro ⟨es, hes, hd⟩
    rw [h] at hes
    exact (Array.append_inj_right hes rfl).symm ▸ hd
  · exact fun hd => ⟨ds, h, hd⟩

theorem not_new_of_eq (h : r.diagnostics = s.diagnostics) : ¬ New d s r := by
  have hds : r.diagnostics = s.diagnostics ++ #[] := by simpa using h
  rw [new_iff hds]
  simp

theorem new_trans_iff (h : ∃ ds, r.diagnostics = s.diagnostics ++ ds)
    (h' : ∃ ds, q.diagnostics = r.diagnostics ++ ds) :
    New d s q ↔ New d s r ∨ New d r q := by
  obtain ⟨ds, hds⟩ := h
  obtain ⟨es, hes⟩ := h'
  have hall : q.diagnostics = s.diagnostics ++ (ds ++ es) := by
    rw [hes, hds, Array.append_assoc]
  rw [new_iff hds, new_iff hes, new_iff hall]
  exact Array.mem_append

theorem Tells.new {zone : List Token} (h : Tells zone s r) (hd : New d s r) :
    ∃ t ∈ zone, d.span = t.span := by
  obtain ⟨ds, hds, hzone⟩ := h
  rw [new_iff hds] at hd
  exact hzone d (by simpa using hd)

/-- A compiler that was calm and panics has reported a problem of form. -/
theorem exists_form (h : Speaks s r) (hs : s.panicking = false) (hr : r.panicking = true) :
    ∃ d, New d s r ∧ d.problem.isSyntax = true := by
  obtain ⟨ds, hds, hspoken⟩ := h
  rw [hs, hr] at hspoken
  obtain ⟨d, hd, hform⟩ := hspoken.form_of_panic
  exact ⟨d, (new_iff hds).mpr (List.mem_toArray.mpr hd), hform⟩

/-! ## Unexpected characters -/

/-- What is wrong with an unexpected character at the front. -/
def strayAhead : List Token → List Diagnostic
  | [] => []
  | t :: _ =>
    match t.kind with
    | .unexpected c => [at' (.unexpectedCharacter c) t]
    | _ => []

theorem mem_strayAhead_iff {ts : List Token} :
    d ∈ strayAhead ts ↔ ∃ t rest c, ts = t :: rest ∧ t.kind = .unexpected c ∧
      d = at' (.unexpectedCharacter c) t := by
  cases ts with
  | nil => simp [strayAhead]
  | cons t rest =>
      cases hk : t.kind <;> simp [strayAhead, hk]

theorem strayAhead_of_settled {ts : List Token} (h : Settled ts) : strayAhead ts = [] := by
  refine List.eq_nil_iff_forall_not_mem.mpr fun d hd => ?_
  obtain ⟨t, rest, c, rfl, hk, -⟩ := mem_strayAhead_iff.mp hd
  exact settled_cons_iff.mp h c hk

/-- A calm compiler that moves on reports an unexpected character ahead. -/
theorem advance_strayAhead (hs : s.panicking = false) {t : Token} {rest : List Token}
    (hp : s.pending = t :: rest) :
    s.advance.diagnostics = s.diagnostics ++ (strayAhead rest).toArray ∧
      (s.advance.panicking = false ↔ Settled rest) := by
  by_cases hr : Settled rest
  · rw [State.advance_of_settled hp hr, strayAhead_of_settled hr]
    simp [hs, hr]
  · cases rest with
    | nil => exact absurd rfl hr
    | cons u rest =>
        obtain ⟨c, hc⟩ : ∃ c, u.kind = .unexpected c := by
          rw [settled_cons_iff] at hr
          simpa using hr
        rw [State.advance_of_unexpected hs hc hp]
        simp [strayAhead, hc, hr, at']

/-! ## Semicolons that are taken for operands -/

/-- What is reported when a semicolon is taken for an operand: that an
operand is missing, unless an unexpected character behind it comes first. -/
def missed (semicolon : Token) (rest : List Token) : List Diagnostic :=
  if (kindAhead rest).isUnexpected then strayAhead rest else [at' .expectedExpression semicolon]

theorem missed_of_settled {semicolon : Token} {rest : List Token} (h : Settled rest) :
    missed semicolon rest = [at' .expectedExpression semicolon] :=
  if_neg (by simpa [Settled] using h)

theorem missed_of_not_settled {semicolon : Token} {rest : List Token} (h : ¬ Settled rest) :
    missed semicolon rest = strayAhead rest :=
  if_pos (by simpa [Settled] using h)

theorem missOperand_panicking (s : State) : s.missOperand.panicking = true :=
  eq_true_of_ne_false (State.report_calm rfl)

theorem missOperand_diagnostics (hs : s.panicking = false) {semicolon : Token}
    {rest : List Token} (hp : s.pending = semicolon :: rest) :
    s.missOperand.diagnostics = s.diagnostics ++ (missed semicolon rest).toArray := by
  obtain ⟨hadv, hcalm⟩ := advance_strayAhead hs hp
  rw [State.missOperand]
  by_cases hr : Settled rest
  · rw [State.report_form (hcalm.mpr hr) rfl, hadv, strayAhead_of_settled hr,
      missed_of_settled hr, State.current_of_pending hp]
    simp [at']
  · have hpanic : s.advance.panicking = true :=
      eq_true_of_ne_false (mt hcalm.mp hr)
    rw [State.report_of_panicking hpanic, hadv, missed_of_not_settled hr]

/-! ## Reading one statement -/

/-- Tokens that make up an expression with no call too long. -/
def Formed (ts : List Token) : Prop :=
  ∃ e, Derives .assignment ts e ∧ e.Narrow maxArguments

/-- The end of a statement, after its expression. -/
theorem end_goes (inputs : List String) (s : State) :
    Goes (expression inputs .assignment s) (statement inputs s) :=
  (Goes.expect _ _).trans (.emit _ _)

theorem statement_of_semicolon {semicolon : Token} {rest : List Token}
    (h : (expression inputs .assignment s).pending = semicolon :: rest)
    (hk : semicolon.kind = .semicolon) :
    statement inputs s = (expression inputs .assignment s).advance.emit .pop :=
  congrArg (State.emit · .pop) (if_pos ((State.ahead_of_pending h).trans hk))

theorem statement_of_missing (h : (expression inputs .assignment s).ahead ≠ .semicolon) :
    statement inputs s = ((expression inputs .assignment s).report
      (expression inputs .assignment s).current (.missing .semicolonAfterExpression)).emit .pop :=
  congrArg (State.emit · .pop) (if_neg h)

section

variable {ts rest : List Token} {semicolon : Token}

theorem comes_expression (inputs : List String) {tail : List Token} (hs : s.panicking = false)
    (hread : Readable s.pending) (hp : s.pending = ts ++ tail)
    (hbare : Bare ts) (hclosed : tail = [] ∨ kindAhead tail = .semicolon) :
    Comes (ts ++ [tail.headD s.final]) tail (∃ ms, Breaks tail .assignment s.pending ms) s
      (expression inputs .assignment s) := by
  refine (reads_expression .assignment s).comes hs hread ⟨⟨ts, hp, ?_⟩, ?_, hclosed⟩ trivial
  · exact fun t ht => ⟨List.mem_append_left _ ht, hbare t ht⟩
  · exact List.mem_append_right _ List.mem_cons_self

theorem expression_formed (hs : s.panicking = false) (hread : Readable s.pending)
    (hp : s.pending = ts ++ semicolon :: rest) (hk : semicolon.kind = .semicolon) {e : Expr}
    (he : Derives .assignment ts e) (hn : e.Narrow maxArguments) :
    expression inputs .assignment s =
      s.after inputs e.mentions e.code e.last (semicolon :: rest) := by
  have hc := he.climbs (continues_of_closing rest (Or.inr (Or.inr hk)))
  rw [← hp] at hc
  exact hc.expression_eq inputs s rfl hs hread hn (settled_of_kind hk rfl) fun _ => by simp [hk]

/-- A formed statement comes to its code and to what is wrong with its names;
then the semicolon is taken calmly. -/
theorem statement_formed (hs : s.panicking = false) (hread : Readable s.pending)
    (hp : s.pending = ts ++ semicolon :: rest) (hbare : Bare ts)
    (hk : semicolon.kind = .semicolon) {e : Expr} (he : Derives .assignment ts e)
    (hn : e.Narrow maxArguments) :
    (statement inputs s).diagnostics =
        s.diagnostics ++ (diagnose inputs s.assigned e.mentions ++ strayAhead rest).toArray ∧
      ∀ d ∈ diagnose inputs s.assigned e.mentions, ∃ t ∈ ts ++ [semicolon], d.span = t.span := by
  have hexp : expression inputs .assignment s =
      s.after inputs e.mentions e.code e.last (semicolon :: rest) :=
    expression_formed hs hread hp hk he hn
  have hcalm : (expression inputs .assignment s).panicking = false := by rw [hexp]; exact hs
  constructor
  · have hpending : (expression inputs .assignment s).pending = semicolon :: rest := by
      rw [hexp, State.after_pending]
    rw [statement_of_semicolon hpending hk]
    show (expression inputs .assignment s).advance.diagnostics = _
    rw [(advance_strayAhead hcalm hpending).1, hexp]
    simp [State.after, Array.append_assoc]
  · rcases comes_expression inputs hs hread hp hbare (Or.inr hk) with hstay | ⟨hfall, -⟩
    · intro d hd
      refine hstay.tells.new ((new_iff ?_).mpr (List.mem_toArray.mpr hd))
      rw [hexp]
      rfl
    · obtain ⟨-, x, -, -, -, hgoes⟩ := hfall
      exact absurd ((missOperand_panicking x).symm.trans (hgoes.calm hcalm)) (by simp)

/-- A statement that breaks off comes to what is wrong with its names so far,
and to the semicolon that is taken for an operand. -/
theorem statement_broken (hs : s.panicking = false) (hread : Readable s.pending)
    (hp : s.pending = ts ++ semicolon :: rest) (hbare : Bare ts)
    (hk : semicolon.kind = .semicolon) {ms : List Mention}
    (hb : Breaks (semicolon :: rest) .assignment s.pending ms) :
    (statement inputs s).diagnostics = s.diagnostics ++
        (diagnose inputs s.assigned ms ++ missed semicolon rest).toArray ∧
      (∀ d ∈ diagnose inputs s.assigned ms, ∃ t ∈ ts ++ [semicolon], d.span = t.span) ∧
      (statement inputs s).panicking = true := by
  obtain ⟨code, last, hgoes⟩ := hb.goes inputs s rfl hs hread
  have hpanic := missOperand_panicking (s.after inputs ms code last (semicolon :: rest))
  have hmissed := missOperand_diagnostics (s := s.after inputs ms code last (semicolon :: rest))
    hs (State.after_pending ..)
  obtain ⟨hr, hexp⟩ := hgoes.silent hpanic
  have hend := end_goes inputs s
  have hall : (expression inputs .assignment s).diagnostics = s.diagnostics ++
      (diagnose inputs s.assigned ms).toArray ++ (missed semicolon rest).toArray := by
    rw [hexp, hmissed]
    rfl
  refine ⟨?_, ?_, (hend.silent hr).1⟩
  · rw [(hend.silent hr).2, hall]
    simp [Array.append_assoc]
  · intro d hd
    rcases comes_expression inputs hs hread hp hbare (Or.inr hk) with hstay | ⟨hfall, -⟩
    · refine hstay.tells.new ⟨_, by rw [hall, Array.append_assoc], ?_⟩
      exact Array.mem_append_left _ (List.mem_toArray.mpr hd)
    · obtain ⟨-, x, htells, hx, hpx, hgoesx⟩ := hfall
      have hsame := (hgoesx.silent (missOperand_panicking x)).2
      rw [hall, missOperand_diagnostics hx hpx] at hsame
      refine htells.new ⟨_, (Array.append_left_inj _).mp hsame.symm, List.mem_toArray.mpr hd⟩

/-- A statement that ends with no semicolon, or that neither is formed nor
breaks off, ends in panic, and all that is reported is in it. -/
theorem statement_within {tail : List Token} (hs : s.panicking = false)
    (hread : Readable s.pending) (hp : s.pending = ts ++ tail) (hbare : Bare ts)
    (hclosed : tail = [] ∨ kindAhead tail = .semicolon)
    (hneither : kindAhead tail = .semicolon →
      ¬ (Formed ts ∨ ∃ ms, Breaks tail .assignment s.pending ms)) :
    Tells (ts ++ [tail.headD s.final]) s (statement inputs s) ∧
      (statement inputs s).panicking = true := by
  have hend := end_goes inputs s
  rcases comes_expression inputs hs hread hp hbare hclosed with hstay | ⟨⟨hk, -⟩, hb⟩
  · cases hr : (expression inputs .assignment s).panicking with
    | true => exact ⟨hstay.tells.trans (.of_eq (hend.silent hr).2), (hend.silent hr).1⟩
    | false =>
        have hat := hstay.stands hr
        obtain ⟨e, mid, hc, hn, hexp⟩ := (reads_expression .assignment s).builds hr hread
        have ha : (expression inputs .assignment s).ahead ≠ .semicolon := by
          intro ha
          have hmid := hat.pending_eq ha
          rw [State.ahead_eq, hmid] at ha
          rw [hexp, State.after_pending] at hmid
          obtain ⟨us, hus, hd⟩ := hc.derives (by decide)
          rw [hp, hmid] at hus
          exact hneither ha (Or.inl ⟨e, List.append_cancel_right hus ▸ hd, hn⟩)
        rw [statement_of_missing ha]
        exact ⟨hstay.tells.trans ((Tells.report hat.current_mem _ _).trans (.of_eq rfl)),
          eq_true_of_ne_false (State.report_calm rfl)⟩
  · exact absurd (Or.inr hb) (hneither hk)

end

/-! ## Skipping the rest of a statement -/

theorem settled_of_closed {tail : List Token} (h : tail = [] ∨ kindAhead tail = .semicolon) :
    Settled tail :=
  h.elim (fun hnil => hnil ▸ rfl) settled_of_semicolon

section

variable {ts tail : List Token}

theorem skip_step {t : Token} (hp : s.pending = t :: ts) (hprev : s.previous.kind ≠ .semicolon) :
    s.skipStatement = s.advance.skipStatement := by
  rw [State.skipStatement, dif_neg (by simp [hp]), if_neg hprev]

theorem skip_stop (h : s.previous.kind = .semicolon) : s.skipStatement = s := by
  rw [State.skipStatement, if_pos h]
  exact ite_self _

/-- With no unexpected character before the semicolon, the one behind it is
reported. -/
theorem skip_clean (hs : s.panicking = false) (hp : s.pending = ts ++ tail)
    (hprev : s.previous.kind ≠ .semicolon)
    (hclean : ∀ t ∈ ts, t.kind.isUnexpected = false ∧ t.kind ≠ .semicolon)
    (hclosed : tail = [] ∨ kindAhead tail = .semicolon) :
    s.skipStatement.diagnostics = s.diagnostics ++ (strayAhead tail.tail).toArray := by
  induction ts generalizing s with
  | nil =>
      cases tail with
      | nil => simp [State.skipStatement, show s.pending = [] from hp, strayAhead]
      | cons semicolon rest =>
          have hk : semicolon.kind = .semicolon := hclosed.resolve_left (by simp)
          rw [skip_step hp hprev, skip_stop, (advance_strayAhead hs hp).1]
          · rfl
          · rw [s.rests_advance.previous, State.current_of_pending hp, hk]
  | cons t ts ih =>
      have hts : ∀ u ∈ ts, u.kind.isUnexpected = false ∧ u.kind ≠ .semicolon :=
        fun u hu => hclean u (List.mem_cons_of_mem t hu)
      have hsettled : Settled (ts ++ tail) := by
        cases ts with
        | nil => exact settled_of_closed hclosed
        | cons u ts => exact (hts u List.mem_cons_self).1
      rw [skip_step hp hprev, State.advance_of_settled hp hsettled]
      exact ih (by exact hs) rfl (hclean t List.mem_cons_self).2 hts

/-- The first unexpected character before the semicolon is reported, and
nothing behind it. -/
theorem skip_stray (hs : s.panicking = false) (hp : s.pending = ts ++ tail)
    (hprev : s.previous.kind ≠ .semicolon) (hbare : Bare ts)
    (hsettled : Settled s.pending) (hstray : ∃ t ∈ ts, t.kind.isUnexpected = true) :
    ∃ t ∈ ts, t.kind.isUnexpected = true ∧ ∃ d : Diagnostic, d.span = t.span ∧
      s.skipStatement.diagnostics = s.diagnostics ++ #[d] := by
  induction ts generalizing s with
  | nil => simp at hstray
  | cons t ts ih =>
      have hstray' : ∃ u ∈ ts, u.kind.isUnexpected = true := by
        obtain ⟨u, hu, hk⟩ := hstray
        rcases List.mem_cons.mp hu with rfl | hu
        · rw [hp] at hsettled
          exact absurd (hk.symm.trans hsettled) (by simp)
        · exact ⟨u, hu, hk⟩
      rw [skip_step hp hprev]
      by_cases hr : Settled (ts ++ tail)
      · rw [State.advance_of_settled hp hr]
        obtain ⟨u, hu, hk, d, hd, hskip⟩ :=
          ih (s := { s with previous := t, pending := ts ++ tail }) hs rfl
            (hbare t List.mem_cons_self) (fun u hu => hbare u (List.mem_cons_of_mem t hu)) hr
            hstray'
        exact ⟨u, List.mem_cons_of_mem t hu, hk, d, hd, hskip⟩
      · obtain ⟨hadv, hcalm⟩ := advance_strayAhead hs hp
        have hpanic : s.advance.panicking = true := eq_true_of_ne_false (mt hcalm.mp hr)
        obtain ⟨-, hskip⟩ := (skipStatement_goes s.advance).silent hpanic
        cases ts with
        | nil => simp at hstray'
        | cons u ts =>
            obtain ⟨c, hc⟩ : ∃ c, u.kind = .unexpected c := by
              rw [List.cons_append, settled_cons_iff] at hr
              simpa using hr
            refine ⟨u, by simp, by simp [hc, Token.Kind.isUnexpected],
              at' (.unexpectedCharacter c) u, rfl, ?_⟩
            rw [hskip, hadv]
            simp [strayAhead, hc]

/-- Skipping reports at tokens that it skips. -/
theorem skip_tells (s : State) : Tells s.pending s s.skipStatement := by
  fun_induction State.skipStatement s with
  | case1 s => exact .of_eq rfl
  | case2 s => exact .of_eq rfl
  | case3 s hp _ ih =>
      have hadv : Tells s.pending s s.advance := by
        cases hs : s.panicking with
        | true => exact .of_eq ((Goes.advance s).silent hs).2
        | false =>
            obtain ⟨t, rest, hp⟩ := List.exists_cons_of_ne_nil hp
            refine ⟨strayAhead rest, (advance_strayAhead hs hp).1, fun d hd => ?_⟩
            obtain ⟨u, rest, c, rfl, -, rfl⟩ := mem_strayAhead_iff.mp hd
            exact ⟨u, by simp [hp], rfl⟩
      exact hadv.trans (ih.mono fun t ht => (Goes.advance s).pending.subset ht)

/-- Recovery reports unexpected characters only. -/
theorem skip_unexpected (h : New d s s.skipStatement) :
    ∃ c, d.problem = .unexpectedCharacter c := by
  fun_induction State.skipStatement s with
  | case1 s => exact absurd h (not_new_of_eq rfl)
  | case2 s => exact absurd h (not_new_of_eq rfl)
  | case3 s hne _ ih =>
      rw [new_trans_iff (Goes.advance s).diagnostics (skipStatement_goes s.advance).diagnostics] at h
      rcases h with h | h
      · cases hs : s.panicking with
        | true => exact absurd h (not_new_of_eq ((Goes.advance s).silent hs).2)
        | false =>
            obtain ⟨t, rest, hp⟩ := List.exists_cons_of_ne_nil hne
            rw [new_iff (advance_strayAhead hs hp).1, List.mem_toArray] at h
            obtain ⟨u, _, c, -, -, rfl⟩ := mem_strayAhead_iff.mp h
            exact ⟨c, rfl⟩
      · exact ih h

theorem skip_ends (s : State) :
    s.skipStatement.pending = [] ∨ s.skipStatement.previous.kind = .semicolon := by
  fun_induction State.skipStatement s with
  | case1 s hp => exact Or.inl hp
  | case2 s _ hk => exact Or.inr hk
  | case3 s _ _ ih => exact ih

end

/-! ## Rounds -/

/-- The state without its panic, from which recovery begins to skip. -/
def State.calmed (s : State) : State :=
  { s with panicking := false }

/-- Read a statement, and recover if that ended in panic. -/
def round (inputs : List String) (s : State) : State :=
  (statement inputs s).recoverIfPanicking

/-- `Follows inputs s u`: some rounds take `s` to `u`. -/
inductive Follows (inputs : List String) (s : State) : State → Prop
  | refl : Follows inputs s s
  | next {u : State} : Follows inputs s u → u.pending ≠ [] → Follows inputs s (round inputs u)

theorem Follows.head (hs : s.pending ≠ []) {u : State} (h : Follows inputs (round inputs s) u) :
    Follows inputs s u := by
  induction h with
  | refl => exact .next .refl hs
  | next _ hu ih => exact .next ih hu

theorem Follows.cases {u : State} (h : Follows inputs s u) :
    u = s ∨ s.pending ≠ [] ∧ Follows inputs (round inputs s) u := by
  induction h with
  | refl => exact Or.inl rfl
  | @next u _ hu ih =>
      rcases ih with rfl | ⟨hs, hfollows⟩
      · exact Or.inr ⟨hu, .refl⟩
      · exact Or.inr ⟨hs, .next hfollows hu⟩

theorem round_diagnostics (inputs : List String) (s : State) :
    ∃ ds, (round inputs s).diagnostics = s.diagnostics ++ ds := by
  obtain ⟨ds, hds⟩ := (statement_goes inputs s).diagnostics
  obtain ⟨es, hes⟩ := recoverIfPanicking_diagnostics (statement inputs s)
  exact ⟨ds ++ es, by rw [round, hes, hds, Array.append_assoc]⟩

/-- What all rounds report is what each of them reports. -/
theorem new_statements_iff :
    New d s (statements inputs s) ↔
      ∃ u, Follows inputs s u ∧ u.pending ≠ [] ∧ New d u (round inputs u) := by
  fun_induction statements inputs s with
  | case1 s hp =>
      refine iff_of_false (not_new_of_eq rfl) ?_
      rintro ⟨u, hu, hne, -⟩
      rcases hu.cases with rfl | ⟨hs, -⟩
      · exact hne hp
      · exact hs hp
  | case2 s hs ih =>
      rw [← round] at ih ⊢
      rw [new_trans_iff (round_diagnostics inputs s) (statements_diagnostics inputs _)]
      constructor
      · rintro (hnew | hnew)
        · exact ⟨s, .refl, hs, hnew⟩
        · obtain ⟨u, hu, hne, hd⟩ := ih.mp hnew
          exact ⟨u, hu.head hs, hne, hd⟩
      · rintro ⟨u, hu, hne, hd⟩
        rcases hu.cases with rfl | ⟨-, hu⟩
        · exact Or.inl hd
        · exact Or.inr (ih.mpr ⟨u, hu, hne, hd⟩)

theorem new_recover_iff :
    New d s s.recoverIfPanicking ↔
      s.panicking = true ∧ New d s.calmed s.calmed.skipStatement := by
  rw [State.recoverIfPanicking, State.recover]
  split
  · rename_i h
    exact ⟨fun hnew => ⟨h, hnew⟩, fun hnew => hnew.2⟩
  · rename_i h
    exact iff_of_false (not_new_of_eq rfl) fun hnew => h hnew.1

theorem new_round_iff :
    New d s (round inputs s) ↔
      New d s (statement inputs s) ∨
        (statement inputs s).panicking = true ∧
          New d (statement inputs s).calmed (statement inputs s).calmed.skipStatement := by
  rw [round, new_trans_iff (statement_goes inputs s).diagnostics
    (recoverIfPanicking_diagnostics (statement inputs s)), new_recover_iff]

/-- A round ends behind a semicolon, or at the end of the source. -/
theorem round_ends (inputs : List String) (s : State) :
    (round inputs s).pending = [] ∨ (round inputs s).previous.kind = .semicolon := by
  rw [round, State.recoverIfPanicking, State.recover]
  split
  · exact skip_ends _
  · rename_i h
    have hcalm : ((expression inputs .assignment s).expect .semicolonAfterExpression).panicking =
        false := Bool.eq_false_iff.mpr h
    obtain ⟨closing, rest, -, hk, -, he⟩ := State.expect_calm inputs hcalm
    refine Or.inr ?_
    show ((expression inputs .assignment s).expect .semicolonAfterExpression).previous.kind = _
    rw [he]
    exact hk

end Pixelwise.Compiler
