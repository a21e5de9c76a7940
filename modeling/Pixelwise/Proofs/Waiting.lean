/-
Waiting — what becomes of a name that is ahead.

While the compiler reads its way towards a name that stands for nothing, it
either waits for it calmly (`Awaits`), or it is decided what becomes of it
(`Told`): it is reported; or it is lost, because an unexpected character
right behind it is reported when it is taken, before it is looked at, and
from then on the compiler panics; or a problem of form came in between.
What is decided stays so.

Main statement: `statement_told`, that at the end of its statement it is
decided.
-/
import Pixelwise.Proofs.Rounds

namespace Pixelwise.Compiler

open Syntax Token

/-- A name that is neither an input nor of the library stands behind tokens
of its statement. -/
structure Unknown (inputs : List String) (front : List Token) (t : Token) : Prop where
  identifier : t.kind = .identifier
  library : ¬ isLibrary t
  input : t.lexeme ∉ inputs
  language : ∀ u ∈ front, u.kind.isUnexpected = false ∧ u.kind ≠ .semicolon
  span : ∀ u ∈ front, u.span ≠ t.span

/-- The problem that the name stands for nothing. -/
def unnamed (t : Token) : Diagnostic :=
  at' (.undefinedName t.lexeme) t

/-- Calmly before the name, somewhere among the tokens `front` of its
statement; `later` is behind it. -/
structure Awaits (front later : List Token) (t : Token) (s : State) : Prop where
  calm : s.panicking = false
  place : ∃ gone ts, front = gone ++ ts ∧ s.pending = ts ++ t :: later
  last : s.previous ∈ front ∨ s.pending = front ++ t :: later

/-- Nothing was reported of the name from `s` to `r`. -/
def Silent (t : Token) (s r : State) : Prop :=
  ∃ ds, r.diagnostics = s.diagnostics ++ ds ∧ unnamed t ∉ ds

/-- From `s` to `r` it was decided what becomes of the name. -/
inductive Told (front later : List Token) (t : Token) (s r : State) : Prop
  | broken {d : Diagnostic} {u : Token} : New d s r → d.problem.isSyntax = true →
      u ∈ front ++ [t] → d.span = u.span → Told front later t s r
  | named : Settled later → New (unnamed t) s r → Told front later t s r
  | lost : ¬ Settled later → r.panicking = true → Silent t s r → Told front later t s r

/-- The compiler still waits, or it is decided. -/
def Becomes (front later : List Token) (t : Token) (s r : State) : Prop :=
  Awaits front later t r ∧ Silent t s r ∨ Told front later t s r

variable {inputs : List String} {front later : List Token} {t : Token} {s r q : State}

/-! ## What is decided stays so -/

theorem Silent.of_eq (h : r.diagnostics = s.diagnostics) : Silent t s r :=
  ⟨#[], by simpa using h, by simp⟩

theorem Silent.trans (h : Silent t s r) (h' : Silent t r q) : Silent t s q := by
  obtain ⟨ds, hds, hd⟩ := h
  obtain ⟨es, hes, he⟩ := h'
  refine ⟨ds ++ es, by rw [hes, hds, Array.append_assoc], ?_⟩
  rw [Array.mem_append]
  exact not_or.mpr ⟨hd, he⟩

theorem Silent.not_new (h : Silent t s r) : ¬ New (unnamed t) s r := by
  obtain ⟨ds, hds, hd⟩ := h
  rwa [new_iff hds]

theorem New.goes {d : Diagnostic} (h : New d s r) (hg : Goes r q) : New d s q := by
  obtain ⟨ds, hds, hd⟩ := h
  obtain ⟨es, hes⟩ := hg.diagnostics
  exact ⟨ds ++ es, by rw [hes, hds, Array.append_assoc], Array.mem_append_left _ hd⟩

theorem New.behind {d : Diagnostic} (h : Silent t s r) (hd : New d r q) : New d s q := by
  obtain ⟨ds, hds, -⟩ := h
  obtain ⟨es, hes, he⟩ := hd
  exact ⟨ds ++ es, by rw [hes, hds, Array.append_assoc], Array.mem_append_right _ he⟩

theorem Told.goes (h : Told front later t s r) (hg : Goes r q) : Told front later t s q := by
  cases h with
  | broken hd hform hu hspan => exact .broken (hd.goes hg) hform hu hspan
  | named hl hd => exact .named hl (hd.goes hg)
  | lost hl hpanic hsilent =>
      obtain ⟨hq, hd⟩ := hg.silent hpanic
      exact .lost hl hq (hsilent.trans (.of_eq hd))

theorem Told.behind (h : Silent t s r) (h' : Told front later t r q) :
    Told front later t s q := by
  cases h' with
  | broken hd hform hu hspan => exact .broken (.behind h hd) hform hu hspan
  | named hl hd => exact .named hl (.behind h hd)
  | lost hl hpanic hsilent => exact .lost hl hpanic (h.trans hsilent)

/-- What comes next matters only while the compiler waits. -/
theorem Becomes.bind (h : Becomes front later t s r) (hg : Goes r q)
    (hnext : Awaits front later t r → Becomes front later t r q) :
    Becomes front later t s q := by
  rcases h with ⟨hr, hsilent⟩ | htold
  · rcases hnext hr with ⟨hq, hsilent'⟩ | htold
    · exact Or.inl ⟨hq, hsilent.trans hsilent'⟩
    · exact Or.inr (.behind hsilent htold)
  · exact Or.inr (htold.goes hg)

/-! ## Steps of a compiler that waits -/

namespace Awaits

theorem of_eq (h : Awaits front later t s) (hm : r.panicking = s.panicking)
    (hp : r.pending = s.pending) (hprev : r.previous = s.previous) :
    Awaits front later t r :=
  ⟨hm.trans h.calm, hp ▸ h.place, by rw [hp, hprev]; exact h.last⟩

theorem refl (h : Awaits front later t s) : Becomes front later t s s :=
  Or.inl ⟨h, .of_eq rfl⟩

theorem emit (h : Awaits front later t s) (i : Instruction) :
    Becomes front later t s (s.emit i) :=
  Or.inl ⟨h.of_eq rfl rfl rfl, .of_eq rfl⟩

theorem emitAll (h : Awaits front later t s) (is : List Instruction) :
    Becomes front later t s (s.emitAll is) := by
  rw [State.emitAll_eq_after s []]
  exact Or.inl ⟨h.of_eq rfl rfl rfl, .of_eq (by simp [State.after])⟩

theorem bind (h : Awaits front later t s) (name : String) :
    Becomes front later t s (s.bind inputs name) := by
  rw [State.bind]
  split
  · exact h.emitAll _
  · exact Becomes.bind (h.emitAll _) (.assign _ _)
      fun hcode => Or.inl ⟨hcode.of_eq rfl rfl rfl, .of_eq rfl⟩

/-- Another problem than that of the name. -/
theorem report (h : Awaits front later t s) {u : Token} {p : Problem} (hp : p.isSyntax = false)
    (hne : at' p u ≠ unnamed t) : Becomes front later t s (s.report u p) := by
  rw [State.report_other h.calm hp]
  refine Or.inl ⟨h.of_eq rfl rfl rfl, #[at' p u], by simp [at'], ?_⟩
  simpa using hne.symm

theorem reportForm (h : Awaits front later t s) {u : Token} {p : Problem}
    (hp : p.isSyntax = true) (hu : u ∈ front ++ [t]) :
    Becomes front later t s (s.report u p) := by
  rw [State.report_form h.calm hp]
  have hnew : New (at' p u) s
      { s with panicking := true, diagnostics := s.diagnostics.push ⟨p, u.line, u.span⟩ } :=
    ⟨#[at' p u], by simp [at'], by simp⟩
  exact Or.inr (.broken hnew hp hu rfl)

/-- The name is next, or a token before it, which is taken calmly. -/
theorem cases (h : Awaits front later t s) (hu : Unknown inputs front t) :
    s.pending = t :: later ∨
      s.current ∈ front ∧ Awaits front later t s.advance ∧ Silent t s s.advance := by
  obtain ⟨gone, ts, hfront, hp⟩ := h.place
  cases ts with
  | nil => exact Or.inl hp
  | cons u ts =>
      have hmem : u ∈ front := by simp [hfront]
      have hsettled : Settled (ts ++ t :: later) := by
        cases ts with
        | nil => exact settled_of_kind hu.identifier rfl
        | cons v ts => exact (hu.language v (by simp [hfront])).1
      have hadv := State.advance_of_settled hp hsettled
      refine Or.inr ⟨State.current_of_pending hp ▸ hmem, ?_, .of_eq (by rw [hadv])⟩
      rw [hadv]
      exact ⟨h.calm, ⟨gone ++ [u], ts, by simp [hfront], rfl⟩, Or.inl hmem⟩

theorem current_mem (h : Awaits front later t s) (hu : Unknown inputs front t) :
    s.current ∈ front ++ [t] := by
  rcases h.cases hu with hp | ⟨hmem, -⟩
  · simp [State.current_of_pending hp]
  · exact List.mem_append_left _ hmem

/-- The statement is not over. -/
theorem ahead_ne (h : Awaits front later t s) (hu : Unknown inputs front t) :
    s.ahead ≠ .semicolon := by
  obtain ⟨gone, ts, hfront, hp⟩ := h.place
  cases ts with
  | nil =>
      rw [State.ahead_of_pending hp, hu.identifier]
      simp
  | cons u ts =>
      rw [State.ahead_of_pending hp]
      exact (hu.language u (by simp [hfront])).2

/-- A token ahead that is no name is not the name. -/
theorem advance (h : Awaits front later t s) (hu : Unknown inputs front t)
    (hne : s.ahead ≠ .identifier) : Becomes front later t s s.advance := by
  rcases h.cases hu with hp | ⟨-, hadv, hsilent⟩
  · exact absurd ((State.ahead_of_pending hp).trans hu.identifier) hne
  · exact Or.inl ⟨hadv, hsilent⟩

theorem expect (h : Awaits front later t s) (hu : Unknown inputs front t) {what : Expectation} :
    Becomes front later t s (s.expect what) := by
  rw [State.expect]
  split
  · rename_i ha
    exact h.advance hu (by cases what <;> simp [ha, Expectation.kind])
  · exact h.reportForm rfl (h.current_mem hu)

theorem refuseTarget (h : Awaits front later t s) (hu : Unknown inputs front t) (b : Bool) :
    Becomes front later t s (s.refuseTarget b) := by
  rw [State.refuseTarget]
  split
  · rename_i hb
    have hmem := h.current_mem hu
    exact (h.advance hu (by simp [hb.2])).bind (.report _ _ _) fun hadv => hadv.reportForm rfl hmem
  · exact h.refl

variable {u : Token}

theorem number (h : Awaits front later t s) : Becomes front later t s (s.number u) := by
  rw [State.number]
  split
  · exact h.emit _
  · exact (h.report rfl (by simp [unnamed, at'])).bind (.emit _ _) fun hr => hr.emit _

theorem checkTarget (h : Awaits front later t s) :
    Becomes front later t s (s.checkTarget inputs u) := by
  rw [State.checkTarget]
  split
  · exact h.report rfl (by simp [unnamed, at'])
  · split
    · exact h.report rfl (by simp [unnamed, at'])
    · exact h.refl

/-- Another name that stands for nothing. -/
theorem checkDefined (h : Awaits front later t s) (hne : u.span ≠ t.span) :
    Becomes front later t s (s.checkDefined inputs u) := by
  rw [State.checkDefined]
  split
  · exact h.refl
  · exact h.report rfl fun he => hne (congrArg Diagnostic.span he)

theorem checkArity (h : Awaits front later t s) {f : Builtin} {found : Nat} :
    Becomes front later t s (s.checkArity u f found) := by
  rw [State.checkArity]
  split
  · exact h.refl
  · exact h.report rfl (by simp [unnamed, at'])

theorem checkCount (h : Awaits front later t s) {count : Nat} (hprev : s.previous ∈ front) :
    Becomes front later t s (s.checkCount count) := by
  rw [State.checkCount]
  split
  · exact h.reportForm rfl (List.mem_append_left _ hprev)
  · exact h.refl

end Awaits

/-! ## The name is taken -/

/-- From `s` to `r` no name is forgotten. -/
def Recalls (s r : State) : Prop :=
  ∀ name ∈ s.assigned, name ∈ r.assigned

theorem Recalls.stepwise : Stepwise Recalls where
  refl _ _ h := h
  trans h h' _ hname := h' _ (h _ hname)
  report s u p name h := by
    rw [(Rests.report s u p).assigned]
    exact h
  emit _ _ _ h := h
  assign _ _ _ h := List.mem_cons_of_mem _ h
  advance s name h := by
    rw [s.rests_advance.assigned]
    exact h

/-- The name is reported when it is looked at, unless its being taken began a
panic. -/
theorem told_checkDefined (hu : Unknown inputs front t) (hs : s.panicking = false)
    (hp : s.pending = t :: later) (hfresh : t.lexeme ∉ s.advance.assigned) :
    Told front later t s (s.advance.checkDefined inputs t) := by
  obtain ⟨hadv, hcalm⟩ := advance_strayAhead hs hp
  have hunknown : ¬ (decide (t.lexeme ∈ inputs) || decide (t.lexeme ∈ s.advance.assigned)) = true := by
    simp [hu.input, hfresh]
  rw [State.checkDefined, if_neg hunknown]
  by_cases hl : Settled later
  · rw [State.report_other (hcalm.mpr hl) rfl]
    refine .named hl ⟨#[unnamed t], ?_, by simp⟩
    rw [hadv, strayAhead_of_settled hl]
    simp [unnamed, at']
  · have hpanic : s.advance.panicking = true := eq_true_of_ne_false (mt hcalm.mp hl)
    rw [State.report_of_panicking hpanic]
    refine .lost hl hpanic ⟨_, hadv, fun hmem => ?_⟩
    obtain ⟨u, rest, c, -, -, hd⟩ := mem_strayAhead_iff.mp (List.mem_toArray.mp hmem)
    simp [unnamed, at'] at hd

/-- A name that is no target is looked at first of all. -/
theorem told_operand {b : Bool} {n : Nat} (hu : Unknown inputs front t)
    (hs : s.panicking = false) (hp : s.pending = t :: later)
    (h : Reads inputs (.operand .variable t b) s.advance r n) (hfresh : t.lexeme ∉ r.assigned) :
    Told front later t s r := by
  have hrecalls := h.keeps Recalls.stepwise
  have htold : Told front later t s (s.advance.checkDefined inputs t) :=
    told_checkDefined hu hs hp fun hmem => hfresh (hrecalls _ hmem)
  have hlibrary : Builtin.ofName? t.lexeme = none := not_isLibrary_iff.mp hu.library
  cases h with
  | @assign _ _ r _ h =>
      refine absurd ?_ hfresh
      rw [State.bind, if_neg (by simp [hlibrary, hu.input])]
      exact List.mem_cons_self
  | call hf => simp [hlibrary] at hf
  | function _ hf => simp [hlibrary] at hf
  | callOther _ _ h =>
      have hrest := (Goes.emit (s.advance.checkDefined inputs t) (.get t.lexeme)).trans
        (.advance _)
      exact (htold.goes hrest).goes (((Goes.report _ _ _).trans h.goes).trans (.emit _ _))
  | name => exact htold.goes (.emit _ _)

/-! ## Readings -/

/-- An operand that is not the name. -/
def Part.Misses (t : Token) : Part → Prop
  | .operand _ u _ => u.span ≠ t.span
  | _ => True

/-- Reading an expression takes a token. -/
theorem Reads.takes {level : Precedence} {n : Nat}
    (h : Reads inputs (.expression level) s r n) :
    r.pending.length ≤ s.pending.length - 1 := by
  cases h with
  | missing =>
      rw [State.pending_report]
      exact s.advance_pending_le
  | opened _ h₁ h₂ =>
      have hgoes := (h₁.goes.trans h₂.goes).trans (.refuseTarget _ (decide (level ≤ .assignment)))
      exact Nat.le_trans hgoes.pending.length_le s.advance_pending_le

/-- Behind an expression, the token taken last is of the statement. -/
theorem Awaits.previous_mem {level : Precedence} {n : Nat} (hs : Awaits front later t s)
    (h : Reads inputs (.expression level) s r n) (hr : Awaits front later t r) :
    r.previous ∈ front := by
  refine hr.last.resolve_right fun hwhole => ?_
  obtain ⟨gone, ts, hfront, hp⟩ := hs.place
  have htakes := h.takes
  rw [hwhole, hp, hfront] at htakes
  simp only [List.length_append, List.length_cons] at htakes
  omega

/-- Whatever is read, the name still waits or it is decided. -/
theorem Reads.becomes {part : Part} {n : Nat} (h : Reads inputs part s r n)
    (hu : Unknown inputs front t) (hs : Awaits front later t s) (hpart : part.Misses t)
    (hfresh : t.lexeme ∉ r.assigned) : Becomes front later t s r := by
  have hrecalls := Recalls.stepwise
  induction h with
  | @missing level s ho =>
      have hne : s.ahead ≠ .identifier := fun e => by simp [e, Kind.opening] at ho
      have hmem := hs.current_mem hu
      exact (hs.advance hu hne).bind (.report _ _ _) fun hadv => hadv.reportForm rfl hmem
  | @opened level o s r q ho h₁ h₂ ih₁ ih₂ =>
      have hq : t.lexeme ∉ q.assigned := fun hmem =>
        hfresh (hrecalls.refuseTarget q _ _ hmem)
      have hr : t.lexeme ∉ r.assigned := fun hmem => hq (h₂.keeps hrecalls _ hmem)
      have hrefuse := Goes.refuseTarget q (decide (level ≤ .assignment))
      have hfirst : Becomes front later t s r := by
        rcases hs.cases hu with hp | ⟨hmem, hadv, hsilent⟩
        · have hcur := State.current_of_pending hp
          have hvariable : o = .variable := by
            rw [State.ahead_of_pending hp, hu.identifier] at ho
            exact (Option.some.inj ho).symm
          subst hvariable
          rw [hcur] at h₁
          exact Or.inr (told_operand hu hs.calm hp h₁ hr)
        · exact Becomes.bind (Or.inl ⟨hadv, hsilent⟩) h₁.goes
            fun hadv => ih₁ hadv (hu.span _ hmem) hr
      refine hfirst.bind (h₂.goes.trans hrefuse) fun hr => ?_
      exact (ih₂ hr trivial hq).bind hrefuse fun hq => hq.refuseTarget hu _
  | @group u b s r _ ih =>
      have hr : t.lexeme ∉ r.assigned := fun hmem =>
        hfresh (hrecalls.expect r _ _ hmem)
      exact (ih hs trivial hr).bind (.expect _ _) fun hr => hr.expect hu
  | unary _ ih => exact (ih hs trivial hfresh).bind (.emit _ _) fun hr => hr.emit _
  | number => exact hs.number
  | @assign u s r he h ih =>
      have hr : t.lexeme ∉ r.assigned := fun hmem =>
        hfresh (hrecalls.bind r inputs _ _ hmem)
      have hbind := Goes.bind r inputs u.lexeme
      refine (hs.advance hu (by simp [he])).bind
        ((Goes.check (.target _ _ _)).trans (h.goes.trans hbind)) fun hadv => ?_
      refine hadv.checkTarget.bind (h.goes.trans hbind) fun hchecked => ?_
      exact (ih hchecked trivial hr).bind hbind fun hr => hr.bind _
  | @call u b f s r argc hf he h ih =>
      have hr : t.lexeme ∉ r.assigned := fun hmem =>
        hfresh (hrecalls.check (.arity r u f argc) _ hmem)
      have hend := (Goes.check (.arity r u f argc)).trans (.emit _ (.call argc))
      refine (hs.emit (.get u.lexeme)).bind ((Goes.advance _).trans (h.goes.trans hend))
        fun hget => ?_
      refine (hget.advance hu (by simp [he])).bind (h.goes.trans hend) fun hadv => ?_
      refine (ih hadv trivial hr).bind hend fun hr => ?_
      exact hr.checkArity.bind (.emit _ _) fun hchecked => hchecked.emit _
  | function =>
      exact (hs.emit _).bind (.report _ _ _) fun hget => hget.report rfl (by simp [unnamed, at'])
  | @callOther u b s r argc hf he h ih =>
      have hend := h.goes.trans (.emit r (.call argc))
      have hreport := (Goes.report ((s.checkDefined inputs u).emit (.get u.lexeme)).advance u
        .notCallable).trans hend
      refine (hs.checkDefined hpart).bind
        ((Goes.emit _ (.get u.lexeme)).trans ((Goes.advance _).trans hreport)) fun hchecked => ?_
      refine (hchecked.emit (.get u.lexeme)).bind ((Goes.advance _).trans hreport) fun hget => ?_
      refine (hget.advance hu (by simp [he])).bind hreport fun hadv => ?_
      refine (hadv.report rfl (by simp [unnamed, at'])).bind hend fun hreported => ?_
      exact (ih hreported trivial hfresh).bind (.emit _ _) fun hr => hr.emit _
  | name =>
      exact (hs.checkDefined hpart).bind (.emit _ _) fun hchecked => hchecked.emit _
  | stop => exact hs.refl
  | @join level op s r q ho hle h₁ h₂ ih₁ ih₂ =>
      have hr : t.lexeme ∉ r.assigned := fun hmem =>
        hfresh (h₂.keeps hrecalls _ (hrecalls.emitAll r op.code _ hmem))
      have hne : s.ahead ≠ .identifier := fun e => by simp [e, Kind.operator] at ho
      have hrest := (Goes.emitAll r op.code).trans h₂.goes
      refine (hs.advance hu hne).bind (h₁.goes.trans hrest) fun hadv => ?_
      refine (ih₁ hadv trivial hr).bind hrest fun hr => ?_
      exact (hr.emitAll _).bind h₂.goes fun hcode => ih₂ hcode trivial hfresh
  | noArguments => exact hs.expect hu
  | @arguments s r argc _ _ ih =>
      have hr : t.lexeme ∉ r.assigned := fun hmem =>
        hfresh (hrecalls.expect r _ _ hmem)
      exact (ih hs trivial hr).bind (.expect _ _) fun hr => hr.expect hu
  | @lastArgument count s r h _ ih =>
      have hr : t.lexeme ∉ r.assigned := fun hmem =>
        hfresh (hrecalls.check (.count r count) _ hmem)
      exact (ih hs trivial hr).bind (.check (.count _ _))
        fun hr => hr.checkCount (hs.previous_mem h hr)
  | @moreArguments count argc s r q h₁ hk h₂ ih₁ ih₂ =>
      have hcount : t.lexeme ∉ (r.checkCount count).advance.assigned := fun hmem =>
        hfresh (h₂.keeps hrecalls _ hmem)
      have hr : t.lexeme ∉ r.assigned := fun hmem =>
        hcount (hrecalls.advance _ _ (hrecalls.check (.count r count) _ hmem))
      have hrest := (Goes.advance (r.checkCount count)).trans h₂.goes
      refine (ih₁ hs trivial hr).bind ((Goes.check (.count r count)).trans hrest) fun hr => ?_
      refine (hr.checkCount (hs.previous_mem h₁ hr)).bind hrest fun hchecked => ?_
      exact (hchecked.advance hu (by simp [hk])).bind h₂.goes
        fun hadv => ih₂ hadv trivial hfresh

/-- At the end of its statement it is decided what becomes of the name. -/
theorem statement_told (hu : Unknown inputs front t) (hs : s.panicking = false)
    (hp : s.pending = front ++ t :: later) (hfresh : t.lexeme ∉ (statement inputs s).assigned) :
    Told front later t s (statement inputs s) := by
  have hawaits : Awaits front later t s := ⟨hs, ⟨[], front, rfl, hp⟩, Or.inr hp⟩
  have hrecalls := Recalls.stepwise
  have hexpression : t.lexeme ∉ (expression inputs .assignment s).assigned := fun hmem =>
    hfresh (hrecalls.emit _ .pop _ (hrecalls.expect _ .semicolonAfterExpression _ hmem))
  rcases (reads_expression .assignment s).becomes hu hawaits trivial hexpression with
    ⟨hr, hsilent⟩ | htold
  · have hmissing := hr.reportForm (p := .missing .semicolonAfterExpression) rfl
      (hr.current_mem hu)
    have hstatement := (Becomes.bind (Or.inl ⟨hr, hsilent⟩) (.report _ _ _) fun _ => hmissing).bind
      (.emit _ .pop) fun hreport => hreport.emit _
    rw [statement_of_missing (hr.ahead_ne hu)]
    exact hstatement.resolve_left fun hwaits => absurd hwaits.1.calm (State.report_calm rfl)
  · exact htold.goes (end_goes inputs s)

end Pixelwise.Compiler
