/-
Locating — where the problems of a statement are reported.

A statement ends at its semicolon, and so its tokens are those before `tail`,
which opens with the semicolon or is empty.  While the compiler is calm it
stands before `tail` (`At`), and what it reports meanwhile is at a token of
the statement (`Tells`).  There is one way to leave the statement calmly, and
that is to take the semicolon for a missing operand (`Falls`); the tokens
then break off there.

Main statement: `Reads.comes`, that every reading stays in its statement or
falls on the semicolon.
-/
import Pixelwise.Proofs.Breaking
import Pixelwise.Proofs.Language

namespace Pixelwise.Compiler

open Syntax

/-! ## Telling -/

/-- What was reported from `s` to `r` is at tokens of `zone`. -/
def Tells (zone : List Token) (s r : State) : Prop :=
  ∃ ds : List Diagnostic, r.diagnostics = s.diagnostics ++ ds.toArray ∧
    ∀ d ∈ ds, ∃ t ∈ zone, d.span = t.span

variable {zone tail : List Token} {s r q : State} {inputs : List String}

theorem Tells.of_eq (h : r.diagnostics = s.diagnostics) : Tells zone s r :=
  ⟨[], by simpa using h, by simp⟩

theorem Tells.trans (h : Tells zone s r) (h' : Tells zone r q) : Tells zone s q := by
  obtain ⟨ds, hds, hd⟩ := h
  obtain ⟨es, hes, he⟩ := h'
  refine ⟨ds ++ es, by simp [hes, hds, Array.append_assoc], ?_⟩
  intro d hmem
  exact (List.mem_append.mp hmem).elim (hd d) (he d)

theorem Tells.mono {zone zone' : List Token} (h : Tells zone s r) (hz : ∀ t ∈ zone, t ∈ zone') :
    Tells zone' s r := by
  obtain ⟨ds, hds, hd⟩ := h
  refine ⟨ds, hds, fun d hmem => ?_⟩
  obtain ⟨t, ht, hspan⟩ := hd d hmem
  exact ⟨t, hz t ht, hspan⟩

theorem Tells.report {t : Token} (ht : t ∈ zone) (s : State) (p : Problem) :
    Tells zone s (s.report t p) := by
  rw [State.report]
  split
  · exact .of_eq rfl
  · exact ⟨[⟨p, t.line, t.span⟩], by simp, by simpa using ⟨t, ht, rfl⟩⟩

/-! ## Standing before the end of a statement -/

/-- The state stands in a statement of the tokens of `zone`, before `tail`;
the last token of `zone` is the one that `tail` opens with. -/
structure At (zone tail : List Token) (s : State) : Prop where
  split : ∃ ts, s.pending = ts ++ tail ∧ ∀ t ∈ ts, t ∈ zone ∧ t.kind ≠ .semicolon
  stop : tail.headD s.final ∈ zone
  closed : tail = [] ∨ kindAhead tail = .semicolon

/-- From `s` to `r` the compiler reported in the statement alone, and it
stands in the statement unless it panics. -/
structure Stays (zone tail : List Token) (s r : State) : Prop where
  stands : r.panicking = false → At zone tail r
  tells : Tells zone s r

/-- On the way from `s` to `r` the compiler came to the end of the statement
and took it for an operand. -/
def Falls (zone tail : List Token) (s r : State) : Prop :=
  kindAhead tail = .semicolon ∧
    ∃ x : State, Tells zone s x ∧ x.panicking = false ∧ x.pending = tail ∧ Goes x.missOperand r

/-- The compiler stayed in the statement, or it fell and `breaks` holds. -/
def Comes (zone tail : List Token) (breaks : Prop) (s r : State) : Prop :=
  Stays zone tail s r ∨ Falls zone tail s r ∧ breaks

theorem Stays.of_panicking (h : Goes s r) (hs : s.panicking = true) : Stays zone tail s r where
  stands := fun hr => absurd ((h.silent hs).1.symm.trans hr) (by simp)
  tells := .of_eq (h.silent hs).2

theorem Falls.goes (h : Falls zone tail s r) (hg : Goes r q) : Falls zone tail s q := by
  obtain ⟨htail, x, htells, hcalm, hp, hgoes⟩ := h
  exact ⟨htail, x, htells, hcalm, hp, hgoes.trans hg⟩

theorem Comes.imp {a b : Prop} (h : Comes zone tail a s r) (hab : a → b) :
    Comes zone tail b s r :=
  h.imp_right fun ⟨hf, ha⟩ => ⟨hf, hab ha⟩

/-- What comes next matters only if the compiler is still calm, and then it
still stands in the statement. -/
theorem Comes.bind {breaks : Prop} (h : Comes zone tail breaks s r) (hg : Goes r q)
    (hnext : r.panicking = false → At zone tail r → Comes zone tail breaks r q) :
    Comes zone tail breaks s q := by
  rcases h with hstay | ⟨hfall, hb⟩
  · cases hr : r.panicking with
    | true =>
        have hrest : Stays zone tail r q := .of_panicking hg hr
        exact Or.inl ⟨hrest.stands, hstay.tells.trans hrest.tells⟩
    | false =>
        rcases hnext hr (hstay.stands hr) with hrest | ⟨⟨htail, x, hx, hfall⟩, hb⟩
        · exact Or.inl ⟨hrest.stands, hstay.tells.trans hrest.tells⟩
        · exact Or.inr ⟨⟨htail, x, hstay.tells.trans hx, hfall⟩, hb⟩
  · exact Or.inr ⟨hfall.goes hg, hb⟩

theorem At.current_mem (h : At zone tail s) : s.current ∈ zone := by
  obtain ⟨ts, hp, hts⟩ := h.split
  cases ts with
  | nil => simpa [State.current, hp] using h.stop
  | cons t ts => simpa [State.current, hp] using (hts t List.mem_cons_self).1

/-- At a semicolon the statement is over. -/
theorem At.pending_eq (h : At zone tail s) (ha : s.ahead = .semicolon) : s.pending = tail := by
  obtain ⟨ts, hp, hts⟩ := h.split
  cases ts with
  | nil => exact hp
  | cons t ts =>
      rw [State.ahead_of_pending hp] at ha
      exact absurd ha (hts t List.mem_cons_self).2

/-! ## Steps that stay in the statement -/

namespace Stays

theorem of_eq (h : At zone tail s) (hp : r.pending = s.pending) (hf : r.final = s.final)
    (hd : r.diagnostics = s.diagnostics) : Stays zone tail s r where
  stands := fun _ => ⟨hp ▸ h.split, hf ▸ h.stop, h.closed⟩
  tells := .of_eq hd

theorem refl (h : At zone tail s) : Stays zone tail s s :=
  .of_eq h rfl rfl rfl

theorem report (h : At zone tail s) {t : Token} (ht : t ∈ zone) (p : Problem) :
    Stays zone tail s (s.report t p) where
  stands := fun _ => by
    refine ⟨(State.pending_report s t p).symm ▸ h.split, ?_, h.closed⟩
    rw [(Goes.report s t p).final]
    exact h.stop
  tells := .report ht s p

theorem emit (h : At zone tail s) (i : Instruction) : Stays zone tail s (s.emit i) :=
  .of_eq h rfl rfl rfl

theorem emitAll (h : At zone tail s) (is : List Instruction) :
    Stays zone tail s (s.emitAll is) := by
  rw [State.emitAll_eq_after s []]
  exact .of_eq h rfl rfl (by simp [State.after])

/-- No semicolon is taken, so what is taken or stepped over is of the
statement. -/
theorem advance (h : At zone tail s) (hs : s.panicking = false) (ha : s.ahead ≠ .semicolon) :
    Stays zone tail s s.advance := by
  obtain ⟨ts, hp, hts⟩ := h.split
  cases ts with
  | nil =>
      rcases h.closed with rfl | hk
      · refine .of_eq h ?_ (Goes.advance s).final ?_
        · rw [State.advance_of_nil hp, hp]
          rfl
        · rw [State.advance_of_nil hp]
      · rw [State.ahead_eq, hp] at ha
        exact absurd hk ha
  | cons t ts =>
      have htail : ∀ u ∈ ts, u ∈ zone ∧ u.kind ≠ .semicolon :=
        fun u hu => hts u (List.mem_cons_of_mem t hu)
      by_cases hr : Settled (ts ++ tail)
      · rw [State.advance_of_settled hp hr]
        exact ⟨fun _ => ⟨⟨ts, rfl, htail⟩, h.stop, h.closed⟩, .of_eq rfl⟩
      · cases ts with
        | nil =>
            rcases h.closed with rfl | hk
            · exact absurd rfl hr
            · exact absurd (settled_of_semicolon hk) hr
        | cons u ts =>
            obtain ⟨c, hc⟩ : ∃ c, u.kind = .unexpected c := by
              rw [List.cons_append, settled_cons_iff] at hr
              simpa using hr
            rw [State.advance_of_unexpected hs hc hp]
            refine ⟨by simp, [⟨.unexpectedCharacter c, u.line, u.span⟩], by simp, ?_⟩
            simpa using ⟨u, (htail u List.mem_cons_self).1, rfl⟩

theorem expect (h : At zone tail s) (hs : s.panicking = false) {what : Expectation}
    (hw : what.kind ≠ .semicolon) : Stays zone tail s (s.expect what) := by
  rw [State.expect]
  split
  · rename_i ha
    exact advance h hs (ha ▸ hw)
  · exact report h h.current_mem _

theorem refuseTarget (h : At zone tail s) (hs : s.panicking = false) (b : Bool) :
    Stays zone tail s (s.refuseTarget b) := by
  rw [State.refuseTarget]
  split
  · rename_i hb
    have hadv := advance h hs (by simp [hb.2])
    have hmem := h.current_mem
    refine ⟨fun hr => ?_, hadv.tells.trans (.report hmem _ _)⟩
    exact (report (hadv.stands ((Goes.report _ _ _).calm hr)) hmem _).stands hr
  · exact refl h

variable {t : Token}

theorem number (h : At zone tail s) (ht : t ∈ zone) : Stays zone tail s (s.number t) := by
  rw [State.number]
  split
  · exact emit h _
  · have hreport := report h ht (.invalidNumber t.lexeme)
    exact ⟨fun hr => (emit (hreport.stands hr) _).stands hr, hreport.tells⟩

theorem check (h : At zone tail s) (ht : t ∈ zone) (hc : s.Checks t r) :
    Stays zone tail s r := by
  cases hc with
  | passed => exact refl h
  | failed p => exact report h ht p

theorem bind (h : At zone tail s) (name : String) :
    Stays zone tail s (s.bind inputs name) := by
  rw [State.bind]
  split
  · exact emitAll h _
  · have hcode := emitAll h [.set name, .get name]
    refine ⟨fun hr => ?_, hcode.tells⟩
    have hat := hcode.stands hr
    exact ⟨hat.split, hat.stop, hat.closed⟩

end Stays

/-! ## Readings stay in the statement or fall on its end -/

/-- What a part asks of the state that it is read from. -/
def Part.Starts (zone : List Token) : Part → State → Prop
  | .operand o t _, s =>
    t.kind.opening = some o ∧ s.previous = t ∧ t ∈ zone ∧ Readable (t :: s.pending)
  | .argument count, _ => count ≤ maxArguments
  | _, _ => True

/-- The tokens of a part break off at `tail`. -/
def Part.Breaks (tail : List Token) : Part → State → Prop
  | .expression level, s => ∃ ms, Syntax.Breaks tail level s.pending ms
  | .operand _ t b, s => ∃ ms, BreaksOperand tail b (t :: s.pending) ms
  | .operators level, s => ∃ ms, BreaksOperators tail level s.pending ms
  | .arguments, s => ∃ ms, BreaksArguments tail 0 s.pending ms
  | .argument count, s => ∃ ms, BreaksArguments tail count s.pending ms

/-- The last token of an expression that was read is one of the statement. -/
theorem At.previous_mem {e : Expr} (hat : At zone tail s) (hr : At zone tail r)
    (hc : Climbs .assignment s.pending e r.pending) (hp : r.previous = e.last) :
    r.previous ∈ zone := by
  obtain ⟨ts, hts, hmem⟩ := hat.split
  obtain ⟨us, hus, -⟩ := hr.split
  obtain ⟨vs, hvs, hd⟩ := hc.derives (by decide)
  rw [hus, hts, ← List.append_assoc] at hvs
  have hsplit : ts = vs ++ us := List.append_cancel_right hvs
  rw [hp]
  exact (hmem _ (hsplit ▸ List.mem_append_left us hd.last_mem)).1

theorem Reads.comes {part : Part} {n : Nat} (h : Reads inputs part s r n)
    (hs : s.panicking = false) (hread : Readable s.pending) (hat : At zone tail s)
    (hstart : part.Starts zone s) : Comes zone tail (part.Breaks tail s) s r := by
  induction h with
  | @missing level s ho =>
      by_cases ha : s.ahead = .semicolon
      · have hp := hat.pending_eq ha
        have htail : kindAhead tail = .semicolon := by rw [← hp, ← State.ahead_eq, ha]
        refine Or.inr ⟨⟨htail, s, .of_eq rfl, hs, hp, .refl _⟩, [], ?_⟩
        rw [hp]
        exact .here htail
      · have hmem := hat.current_mem
        exact Comes.bind (Or.inl (Stays.advance hat hs ha)) (.report _ _ _)
          fun _ hadv => Or.inl (Stays.report hadv hmem _)
  | @opened level o s r q ho h₁ h₂ ih₁ ih₂ =>
      obtain ⟨t, ts, hp, hcur, ha⟩ := State.exists_of_ahead (ahead_ne_of_opening ho)
      have hne : s.ahead ≠ .semicolon := fun e => by simp [e, Token.Kind.opening] at ho
      have hmem := hat.current_mem
      have hrefuse := Goes.refuseTarget q (decide (level ≤ .assignment))
      refine Comes.bind (Or.inl (Stays.advance hat hs hne)) (h₁.goes.trans (h₂.goes.trans hrefuse))
        fun hadv hatadv => ?_
      obtain ⟨-, -, hadvance⟩ := State.advance_calm hadv hp
      have hpadv : s.advance.pending = ts := by rw [hadvance]
      have hreadall : Readable (s.current :: s.advance.pending) := by
        rw [hpadv, hcur, ← hp]
        exact hread
      have hstart₁ : (Part.operand o s.current (decide (level ≤ .assignment))).Starts zone
          s.advance := by
        refine ⟨by rw [hcur, ← ha, ho], ?_, hmem, hreadall⟩
        rw [hadvance, hcur]
      refine Comes.bind ((ih₁ hadv (hreadall.suffix (List.suffix_cons _ _)) hatadv hstart₁).imp ?_)
        (h₂.goes.trans hrefuse) fun hcr hatr => ?_
      · rintro ⟨ms, hb⟩
        rw [hpadv, hcur, ← hp] at hb
        exact ⟨ms, .operand hb⟩
      · obtain ⟨first, mid, hopens, hn, hr⟩ :=
          h₁.builds hcr (hreadall.suffix (List.suffix_cons _ _)) hstart₁.1 hstart₁.2.1 hreadall
        have hmid : r.pending = mid := by rw [hr, State.after_pending]
        rw [hpadv, hcur, ← hp] at hopens
        refine Comes.bind ((ih₂ hcr (hread.suffix ((Goes.advance s).trans h₁.goes).pending) hatr
          trivial).imp ?_) hrefuse fun hcq hatq => Or.inl (Stays.refuseTarget hatq hcq _)
        rintro ⟨ms, hb⟩
        exact ⟨first.mentions ++ ms, .operators hopens hn (hmid ▸ hb)⟩
  | group _ ih =>
      obtain ⟨ho, -, -, -⟩ := hstart
      refine Comes.bind ((ih hs hread hat trivial).imp ?_) (.expect _ _)
        fun hcr hatr => Or.inl (Stays.expect hatr hcr (by decide))
      rintro ⟨ms, hb⟩
      exact ⟨ms, .group (opening_grouping ho) hb⟩
  | unary _ ih =>
      obtain ⟨ho, -, -, -⟩ := hstart
      refine Comes.bind ((ih hs hread hat trivial).imp ?_) (.emit _ _)
        fun _ hatr => Or.inl (Stays.emit hatr _)
      rintro ⟨ms, hb⟩
      exact ⟨ms, .unary ho hb⟩
  | number => exact Or.inl (Stays.number hat hstart.2.2.1)
  | @assign t s r he h ih =>
      obtain ⟨ho, -, hmem, -⟩ := hstart
      obtain ⟨sign, ts, hp, hkind⟩ := State.exists_of_ahead_eq he (by decide)
      have hrest := h.goes.trans (.bind r inputs t.lexeme)
      refine Comes.bind (Or.inl (Stays.advance hat hs (by simp [he])))
        ((Goes.check (.target _ _ _)).trans hrest) fun hadv hatadv => ?_
      obtain ⟨-, -, hadvance⟩ := State.advance_calm hadv hp
      have hpadv : (s.advance.checkTarget inputs t).pending = ts := by
        rw [State.pending_checkTarget, hadvance]
      refine Comes.bind (Or.inl (Stays.check hatadv hmem (.target _ _ _))) hrest fun hct hatct => ?_
      refine Comes.bind ((ih hct ?_ hatct trivial).imp ?_) (.bind _ _ _)
        fun _ hatr => Or.inl (Stays.bind hatr _)
      · exact hpadv ▸ hread.suffix (hp ▸ List.suffix_cons sign ts)
      · rintro ⟨ms, hb⟩
        rw [hpadv] at hb
        exact ⟨.target t :: ms, hp ▸ .assign (opening_variable ho) hkind hb⟩
  | @call t b f s r argc hf he h ih =>
      obtain ⟨ho, -, hmem, -⟩ := hstart
      obtain ⟨opening, ts, hp, hkind⟩ := State.exists_of_ahead_eq he (by decide)
      have hrest := h.goes.trans ((Goes.check (.arity r t f argc)).trans (.emit _ (.call argc)))
      refine Comes.bind (Or.inl (Stays.emit hat (.get t.lexeme))) ((Goes.advance _).trans hrest)
        fun hce hate => ?_
      refine Comes.bind (Or.inl (Stays.advance hate hce (by simp [he]))) hrest
        fun hadv hatadv => ?_
      obtain ⟨-, -, hadvance⟩ := State.advance_calm hadv (by exact hp)
      have hpadv : (s.emit (.get t.lexeme)).advance.pending = ts := by
        rw [hadvance]
      refine Comes.bind ((ih hadv ?_ hatadv trivial).imp ?_)
        ((Goes.check (.arity r t f argc)).trans (.emit _ (.call argc))) fun hcr hatr => ?_
      · exact hpadv ▸ hread.suffix (hp ▸ List.suffix_cons opening ts)
      · rintro ⟨ms, hb⟩
        rw [hpadv] at hb
        exact ⟨.opened t :: ms, hp ▸ .call (opening_variable ho) hkind hb⟩
      · exact Comes.bind (Or.inl (Stays.check hatr hmem (.arity r t f argc))) (.emit _ _)
          fun _ hatc => Or.inl (Stays.emit hatc _)
  | function =>
      exact Comes.bind (Or.inl (Stays.emit hat _)) (.report _ _ _)
        fun _ hate => Or.inl (Stays.report hate hstart.2.2.1 _)
  | @callOther t b s r argc hf he h ih =>
      obtain ⟨ho, -, hmem, -⟩ := hstart
      obtain ⟨opening, ts, hp, hkind⟩ := State.exists_of_ahead_eq he (by decide)
      have hrest := h.goes.trans (.emit r (.call argc))
      have hreport := (Goes.report ((s.checkDefined inputs t).emit (.get t.lexeme)).advance t
        .notCallable).trans hrest
      refine Comes.bind (Or.inl (Stays.check hat hmem (.defined s inputs t)))
        ((Goes.emit _ (.get t.lexeme)).trans ((Goes.advance _).trans hreport)) fun hcd hatd => ?_
      refine Comes.bind (Or.inl (Stays.emit hatd (.get t.lexeme)))
        ((Goes.advance _).trans hreport) fun hce hate => ?_
      refine Comes.bind (Or.inl (Stays.advance hate hce (by simp [he]))) hreport
        fun hadv hatadv => ?_
      have hpe : ((s.checkDefined inputs t).emit (.get t.lexeme)).pending = opening :: ts := by
        simpa using hp
      obtain ⟨-, -, hadvance⟩ := State.advance_calm hadv hpe
      have hpadv : (((s.checkDefined inputs t).emit (.get t.lexeme)).advance.report t
          .notCallable).pending = ts := by
        rw [State.pending_report, hadvance]
      refine Comes.bind (Or.inl (Stays.report hatadv hmem .notCallable)) hrest fun hcn hatn => ?_
      refine Comes.bind ((ih hcn ?_ hatn trivial).imp ?_) (.emit _ _)
        fun _ hatr => Or.inl (Stays.emit hatr _)
      · exact hpadv ▸ hread.suffix (hp ▸ List.suffix_cons opening ts)
      · rintro ⟨ms, hb⟩
        rw [hpadv] at hb
        exact ⟨.opened t :: ms, hp ▸ .call (opening_variable ho) hkind hb⟩
  | name =>
      exact Comes.bind (Or.inl (Stays.check hat hstart.2.2.1 (.defined _ _ _))) (.emit _ _)
        fun _ hatd => Or.inl (Stays.emit hatd _)
  | stop => exact Or.inl (Stays.refl hat)
  | @join level op s r q ho hle h₁ h₂ ih₁ ih₂ =>
      obtain ⟨sign, ts, hp, -, ha⟩ := State.exists_of_ahead (ahead_ne_of_operator ho)
      have hne : s.ahead ≠ .semicolon := fun e => by simp [e, Token.Kind.operator] at ho
      have hrest := (Goes.emitAll r op.code).trans h₂.goes
      refine Comes.bind (Or.inl (Stays.advance hat hs hne)) (h₁.goes.trans hrest)
        fun hadv hatadv => ?_
      obtain ⟨-, -, hadvance⟩ := State.advance_calm hadv hp
      have hpadv : s.advance.pending = ts := by rw [hadvance]
      have hreadadv : Readable s.advance.pending := hread.suffix (Goes.advance s).pending
      refine Comes.bind ((ih₁ hadv hreadadv hatadv trivial).imp ?_) hrest fun hcr hatr => ?_
      · rintro ⟨ms, hb⟩
        rw [hpadv] at hb
        exact ⟨ms, hp ▸ .operand (ha ▸ ho) hle hb⟩
      · obtain ⟨right, mid, hc, hn, hr⟩ := h₁.builds hcr hreadadv
        rw [hpadv] at hc
        have hmid : (r.emitAll op.code).pending = mid := by
          rw [State.pending_emitAll, hr, State.after_pending]
        refine Comes.bind (Or.inl (Stays.emitAll hatr op.code)) h₂.goes fun hce hate => ?_
        refine (ih₂ hce (hmid ▸ ?_) hate trivial).imp ?_
        · have := hreadadv.suffix h₁.goes.pending
          rwa [hr] at this
        · rintro ⟨ms, hb⟩
          exact ⟨right.mentions ++ ms, hp ▸ .more (ha ▸ ho) hle hc hn (hmid ▸ hb)⟩
  | noArguments => exact Or.inl (Stays.expect hat hs (by decide))
  | arguments _ _ ih =>
      exact Comes.bind (ih hs hread hat (Nat.zero_le _)) (.expect _ _)
        fun hcr hatr => Or.inl (Stays.expect hatr hcr (by decide))
  | @lastArgument count s r h _ ih =>
      refine Comes.bind ((ih hs hread hat trivial).imp ?_) (.check (.count _ _)) fun hcr hatr => ?_
      · rintro ⟨ms, hb⟩
        exact ⟨ms, .argument hb⟩
      · obtain ⟨e, mid, hc, -, hr⟩ := h.builds hcr hread
        have hmem := hat.previous_mem hatr (by rw [hr]; exact hc) (by rw [hr]; rfl)
        exact Or.inl (Stays.check hatr hmem (.count r count))
  | @moreArguments count argc s r q h₁ hk h₂ ih₁ ih₂ =>
      have hrest := (Goes.advance (r.checkCount count)).trans h₂.goes
      refine Comes.bind ((ih₁ hs hread hat trivial).imp ?_)
        ((Goes.check (.count r count)).trans hrest) fun hcr hatr => ?_
      · rintro ⟨ms, hb⟩
        exact ⟨ms, .argument hb⟩
      · obtain ⟨e, mid, hc, hn, hr⟩ := h₁.builds hcr hread
        have hmem := hat.previous_mem hatr (by rw [hr]; exact hc) (by rw [hr]; rfl)
        refine Comes.bind (Or.inl (Stays.check hatr hmem (.count r count))) hrest fun hcc hatc => ?_
        obtain ⟨hcount, hmax⟩ := State.checkCount_calm hcc
        rw [hcount] at hcc hatc hk h₂ ih₂ ⊢
        obtain ⟨comma, ts, hp, hkind⟩ := State.exists_of_ahead_eq hk (by decide)
        refine Comes.bind (Or.inl (Stays.advance hatc hcc (by simp [hk]))) h₂.goes
          fun hadv hatadv => ?_
        obtain ⟨-, -, hadvance⟩ := State.advance_calm hadv hp
        have hpadv : r.advance.pending = ts := by rw [hadvance]
        have hlt : count < maxArguments := Nat.lt_of_le_of_ne hstart hmax
        have hreadadv : Readable r.advance.pending :=
          hread.suffix (h₁.goes.trans (.advance r)).pending
        refine (ih₂ hadv hreadadv hatadv hlt).imp ?_
        rintro ⟨ms, hb⟩
        rw [hr, State.after_pending] at hp
        exact ⟨e.mentions ++ ms, .more (hp ▸ hc) hn hkind hlt (hpadv ▸ hb)⟩

end Pixelwise.Compiler
