/-
Rounds — of which statement each problem is reported.

A round begins at a statement and reports what is wrong with it, and perhaps
the unexpected character that the next statement opens with (`Takes`,
`Reaches`).  Recovery reports an unexpected character in the statement whose
rest it skips, or the one that the next statement opens with (`Meets`,
`Regains`).

Main statements: `statement_home` and `skip_home`, that each diagnostic is of
one statement, and of which; and their converses, that what is there to be
reported is reported.
-/
import Pixelwise.Proofs.Recovery

namespace Pixelwise.Compiler

open Syntax Token

variable {inputs : List String} {source : String}

/-! ## What a compilation comes to -/

/-- A round of the compilation begins in this state. -/
def Begins (inputs : List String) (source : String) (s : State) : Prop :=
  Follows inputs (State.start [] (scan source) (endOf source)) s

/-- A round panics before its semicolon is taken, and recovery has these
tokens to skip. -/
def Skips (inputs : List String) (source : String) (ts : List Token) : Prop :=
  ∃ s, Begins inputs source s ∧ s.pending ≠ [] ∧ (statement inputs s).panicking = true ∧
    (statement inputs s).previous.kind ≠ .semicolon ∧ (statement inputs s).pending = ts

/-- The compiler comes calmly to these tokens, which begin a statement: they
are all there is, or the semicolon before them was taken by a round that was
calm until then, or by recovery with no unexpected character in its way. -/
inductive Attended (inputs : List String) (source : String) : List Token → Prop
  | first : Attended inputs source (scan source)
  | read {s : State} {ts rest : List Token} {semicolon : Token} :
      Begins inputs source s → s.panicking = false → s.pending = ts ++ semicolon :: rest →
      Bare ts → semicolon.kind = .semicolon →
      (Formed ts ∨ ∃ ms, Breaks (semicolon :: rest) .assignment s.pending ms) →
      Attended inputs source rest
  | skipped {ts rest : List Token} {semicolon : Token} :
      Skips inputs source (ts ++ semicolon :: rest) → Bare ts → semicolon.kind = .semicolon →
      (∀ t ∈ ts, t.kind.isUnexpected = false) → Attended inputs source rest

/-- The tokens are no expression in which nothing is wrong with names. -/
def Wrong (inputs assigned : List String) (ts : List Token) : Prop :=
  ∀ e, Derives .assignment ts e → diagnose inputs assigned e.mentions ≠ []

/-- The statement breaks off with nothing wrong so far, and an unexpected
character behind it is reported in its place. -/
def Deferred (inputs : List String) (s : State) (semicolon : Token) (rest : List Token) : Prop :=
  ¬ Settled rest ∧ ∃ ms, Breaks (semicolon :: rest) .assignment s.pending ms ∧
    diagnose inputs s.assigned ms = []

/-! ## Where rounds begin -/

namespace Begins

variable {s : State}

theorem placed (h : Begins inputs source s) : Placed (scan source) s := by
  induction h with
  | refl => exact placed_start source
  | next _ _ ih => exact recoverIfPanicking_placed (statement_placed _ ih)

/-- A round begins at the beginning of a statement, but for unexpected
characters. -/
theorem stands (h : Begins inputs source s) (hne : s.pending ≠ []) :
    ∃ before ts, scan source = before ++ ts ∧ s.pending = clear ts ∧ Closed before := by
  have hplaced := h.placed
  cases h with
  | refl => exact ⟨[], scan source, rfl, (rests_start source).pending, by simp [Closed]⟩
  | @next u _ _ =>
      rcases hplaced.place with hnil | ⟨before, ts, hsource, hp, hlast⟩
      · exact absurd hnil hne
      · refine ⟨before, ts, hsource, hp, ?_⟩
        rcases hlast with hlast | ⟨rfl, -⟩
        · have hk := (round_ends inputs u).resolve_left hne
          simpa [Closed, hlast] using hk
        · simp [Closed]

theorem readable (h : Begins inputs source s) : Readable s.pending := by
  by_cases hne : s.pending = []
  · simp [Readable, hne]
  · exact (readable_source source).suffix (h.placed.suffix hne).1

theorem final (h : Begins inputs source s) : s.final = endOf source := by
  induction h with
  | refl => exact (rests_start source).final
  | @next u _ _ ih =>
      have hstatement := (statement_goes inputs u).final.trans ih
      rw [round, State.recoverIfPanicking, State.recover]
      split
      · exact (skipStatement_goes { statement inputs u with panicking := false }).final.trans
          hstatement
      · exact hstatement

end Begins

/-! ## What one statement reports -/

section

variable {ts rest : List Token} {semicolon : Token} {s : State} {d : Diagnostic}

theorem eq_nil_of_append_eq {ds : Array Diagnostic} {xs ys : List Diagnostic}
    (h : ds ++ (xs ++ ys).toArray = ds ++ ([] ++ ys).toArray) : xs = [] := by
  simpa using congrArg Array.toList h

/-- A diagnostic of a statement is at one of its tokens, and then the
statement is wrong; or it is at an unexpected character behind the
semicolon. -/
theorem statement_new (hs : s.panicking = false) (hread : Readable s.pending)
    (hp : s.pending = ts ++ semicolon :: rest) (hbare : Bare ts) (hk : semicolon.kind = .semicolon)
    (hnew : New d s (statement inputs s)) :
    ((∃ t ∈ ts ++ [semicolon], d.span = t.span) ∧ Wrong inputs s.assigned ts ∧
        ¬ Deferred inputs s semicolon rest) ∨
      ((Formed ts ∨ ∃ ms, Breaks (semicolon :: rest) .assignment s.pending ms) ∧
        d ∈ strayAhead rest) := by
  by_cases hformed : Formed ts
  · obtain ⟨e, he, hn⟩ := hformed
    obtain ⟨hdiag, hzone⟩ := statement_formed hs hread hp hbare hk he hn
    have hmem := (new_iff hdiag).mp hnew
    rw [List.mem_toArray, List.mem_append] at hmem
    rcases hmem with hmem | hmem
    · refine Or.inl ⟨hzone d hmem, fun e' he' hclean => ?_, ?_⟩
      · have hn' := narrow_of_diagnose e' _ hclean
        obtain ⟨hdiag', -⟩ := statement_formed hs hread hp hbare hk he' hn'
        rw [hdiag, hclean] at hdiag'
        simp [eq_nil_of_append_eq hdiag'] at hmem
      · rintro ⟨hunsettled, ms, hb, hclean⟩
        obtain ⟨hdiag', -⟩ := statement_broken hs hread hp hbare hk hb
        rw [hdiag, hclean, missed_of_not_settled hunsettled] at hdiag'
        simp [eq_nil_of_append_eq hdiag'] at hmem
    · exact Or.inr ⟨Or.inl ⟨e, he, hn⟩, hmem⟩
  · have hwrong : Wrong inputs s.assigned ts :=
      fun e he hclean => hformed ⟨e, he, narrow_of_diagnose e _ hclean⟩
    by_cases hbreaks : ∃ ms, Breaks (semicolon :: rest) .assignment s.pending ms
    · obtain ⟨ms, hb⟩ := hbreaks
      obtain ⟨hdiag, hzone, -⟩ := statement_broken hs hread hp hbare hk hb
      have hmem := (new_iff hdiag).mp hnew
      rw [List.mem_toArray, List.mem_append] at hmem
      rcases hmem with hmem | hmem
      · refine Or.inl ⟨hzone d hmem, hwrong, ?_⟩
        rintro ⟨-, ms', hb', hclean⟩
        obtain ⟨hdiag', -⟩ := statement_broken hs hread hp hbare hk hb'
        rw [hdiag, hclean] at hdiag'
        simp [eq_nil_of_append_eq hdiag'] at hmem
      · by_cases hsettled : Settled rest
        · rw [missed_of_settled hsettled, List.mem_singleton] at hmem
          refine Or.inl ⟨⟨semicolon, by simp, by rw [hmem]; rfl⟩, hwrong, ?_⟩
          exact fun hdeferred => hdeferred.1 hsettled
        · rw [missed_of_not_settled hsettled] at hmem
          exact Or.inr ⟨Or.inr ⟨ms, hb⟩, hmem⟩
    · obtain ⟨htells, -⟩ := statement_within hs hread hp hbare (Or.inr hk)
        fun _ => not_or.mpr ⟨hformed, hbreaks⟩
      refine Or.inl ⟨htells.new hnew, hwrong, ?_⟩
      rintro ⟨-, ms, hb, -⟩
      exact hbreaks ⟨ms, hb⟩

/-- A wrong statement has a diagnostic at one of its tokens, unless it is
deferred. -/
theorem exists_new_of_wrong (hs : s.panicking = false) (hread : Readable s.pending)
    (hp : s.pending = ts ++ semicolon :: rest) (hbare : Bare ts) (hk : semicolon.kind = .semicolon)
    (hwrong : Wrong inputs s.assigned ts) (hdeferred : ¬ Deferred inputs s semicolon rest) :
    ∃ d, New d s (statement inputs s) ∧ ∃ t ∈ ts ++ [semicolon], d.span = t.span := by
  by_cases hformed : Formed ts
  · obtain ⟨e, he, hn⟩ := hformed
    obtain ⟨hdiag, hzone⟩ := statement_formed hs hread hp hbare hk he hn
    obtain ⟨d, hd⟩ := List.exists_mem_of_ne_nil _ (hwrong e he)
    exact ⟨d, (new_iff hdiag).mpr (by simp [hd]), hzone d hd⟩
  · by_cases hbreaks : ∃ ms, Breaks (semicolon :: rest) .assignment s.pending ms
    · obtain ⟨ms, hb⟩ := hbreaks
      obtain ⟨hdiag, hzone, -⟩ := statement_broken hs hread hp hbare hk hb
      by_cases hclean : diagnose inputs s.assigned ms = []
      · have hsettled : Settled rest := by
          by_cases hr : Settled rest
          · exact hr
          · exact absurd ⟨hr, ms, hb, hclean⟩ hdeferred
        refine ⟨at' .expectedExpression semicolon, (new_iff hdiag).mpr ?_, semicolon, by simp, rfl⟩
        simp [missed_of_settled hsettled]
      · obtain ⟨d, hd⟩ := List.exists_mem_of_ne_nil _ hclean
        exact ⟨d, (new_iff hdiag).mpr (by simp [hd]), hzone d hd⟩
    · obtain ⟨htells, hpanic⟩ := statement_within hs hread hp hbare (Or.inr hk)
        fun _ => not_or.mpr ⟨hformed, hbreaks⟩
      obtain ⟨d, hnew, -⟩ := exists_form (Speaks.stepwise.statement inputs s) hs hpanic
      exact ⟨d, hnew, htells.new hnew⟩

/-- An unexpected character behind a statement that was read calmly up to its
semicolon is reported. -/
theorem new_of_stray (hs : s.panicking = false) (hread : Readable s.pending)
    (hp : s.pending = ts ++ semicolon :: rest) (hbare : Bare ts) (hk : semicolon.kind = .semicolon)
    (hpassed : Formed ts ∨ ∃ ms, Breaks (semicolon :: rest) .assignment s.pending ms)
    (hd : d ∈ strayAhead rest) : New d s (statement inputs s) := by
  rcases hpassed with ⟨e, he, hn⟩ | ⟨ms, hb⟩
  · obtain ⟨hdiag, -⟩ := statement_formed hs hread hp hbare hk he hn
    exact (new_iff hdiag).mpr (by simp [hd])
  · obtain ⟨hdiag, -⟩ := statement_broken hs hread hp hbare hk hb
    have hr : ¬ Settled rest := fun hr => by simp [strayAhead_of_settled hr] at hd
    rw [missed_of_not_settled hr] at hdiag
    exact (new_iff hdiag).mpr (by simp [hd])

end

/-! ## Every diagnostic is of one statement -/

/-- The diagnostic is at a place of the statement. -/
def Belongs (source : String) (body tail : List Token) (d : Diagnostic) : Prop :=
  ∃ t ∈ places source body tail, d.span = t.span

/-- The round that begins in `s` comes calmly to `ts`: it takes the semicolon
before them after its expression, or for an operand that it misses. -/
structure Reaches (inputs : List String) (s : State) (ts : List Token) : Prop where
  calm : s.panicking = false
  place : ∃ us semicolon, s.pending = us ++ semicolon :: ts ∧ Bare us ∧
    semicolon.kind = .semicolon ∧
      (Formed us ∨ ∃ ms, Breaks (semicolon :: ts) .assignment s.pending ms)

/-- The round that begins in `s` reads the statement. -/
structure Takes (inputs : List String) (s : State) (body tail : List Token) : Prop where
  calm : s.panicking = false
  place : s.pending = clear body ++ tail
  wrong : ∀ semicolon rest, tail = semicolon :: rest →
    Wrong inputs s.assigned (clear body) ∧ ¬ Deferred inputs s semicolon rest

/-- Recovery from `s` comes to `ts`: it skips the rest of the statement before
them, in which there is no unexpected character. -/
structure Regains (s : State) (ts : List Token) : Prop where
  stands : s.previous.kind ≠ .semicolon
  place : ∃ us semicolon, s.pending = us ++ semicolon :: ts ∧ Bare us ∧
    semicolon.kind = .semicolon ∧ ∀ t ∈ us, t.kind.isUnexpected = false

/-- Recovery from `s` meets an unexpected character before `tail`. -/
structure Meets (s : State) (tail : List Token) : Prop where
  stands : s.previous.kind ≠ .semicolon
  place : ∃ us, s.pending = us ++ tail ∧ Bare us ∧ ∃ t ∈ us, t.kind.isUnexpected = true

section

variable {s : State} {d : Diagnostic}

/-- What is wrong with an unexpected character that begins a statement. -/
theorem stray_home {before ts : List Token} (hsource : scan source = before ++ ts)
    (hbefore : Closed before) (hstray : d ∈ strayAhead ts) :
    ∃ body tail, Cuts (scan source) body tail ∧ body ++ tail = ts ∧ Belongs source body tail d := by
  obtain ⟨body, tail, hts, hcuts, hhead⟩ := exists_cuts hsource hbefore
  obtain ⟨t, rest, c, rfl, -, rfl⟩ := mem_strayAhead_iff.mp hstray
  exact ⟨body, tail, hcuts, hts.symm, t, hhead t rfl, rfl⟩

/-- What reading a statement reports is of that statement or the next. -/
theorem statement_home (hs : Begins inputs source s) (hne : s.pending ≠ [])
    (hnew : New d s (statement inputs s)) :
    ∃ body tail, Cuts (scan source) body tail ∧ body ++ tail ≠ [] ∧ Belongs source body tail d ∧
      (Reaches inputs s (body ++ tail) ∧ d ∈ strayAhead (body ++ tail) ∨
        Takes inputs s body tail) := by
  have hcalm : s.panicking = false := by
    refine Bool.eq_false_iff.mpr fun hs => ?_
    exact not_new_of_eq ((statement_goes inputs s).silent hs).2 hnew
  obtain ⟨before, ts, hsource, hp, hbefore⟩ := hs.stands hne
  obtain ⟨us, tail, rfl, hbare, htail⟩ := exists_bare ts
  have hbarec : Bare (clear us) := hbare.suffix (clear_suffix us)
  have hcuts : Cuts (scan source) us tail := ⟨⟨before, hsource, hbefore⟩, hbare, htail⟩
  have hnil : us ++ tail ≠ [] := fun hnil => hne (by rw [hp, hnil]; rfl)
  rw [clear_append (settled_of_closed htail)] at hp
  cases tail with
  | nil =>
      obtain ⟨htells, -⟩ :=
        statement_within hcalm hs.readable hp hbarec (Or.inl rfl) (nomatch ·)
      obtain ⟨t, ht, hspan⟩ := htells.new hnew
      refine ⟨us, [], hcuts, hnil, ⟨t, ?_, hspan⟩, Or.inr ⟨hcalm, hp, by simp⟩⟩
      rw [hs.final] at ht
      exact List.mem_append.mpr ((List.mem_append.mp ht).imp_left clear_mem)
  | cons closing after =>
      have hk : closing.kind = .semicolon := htail.resolve_left (by simp)
      rcases statement_new hcalm hs.readable hp hbarec hk hnew with
        ⟨⟨t, ht, hspan⟩, hwrong⟩ | ⟨hpassed, hstray⟩
      · refine ⟨us, closing :: after, hcuts, hnil, ⟨t, ?_, hspan⟩, Or.inr ⟨hcalm, hp, ?_⟩⟩
        · exact List.mem_append.mpr ((List.mem_append.mp ht).imp_left clear_mem)
        · rintro semicolon rest ⟨⟩
          exact hwrong
      · have hbehind : scan source = (before ++ us ++ [closing]) ++ after := by simp [hsource]
        obtain ⟨body, tail, hnext, rfl, hplace⟩ := stray_home hbehind (.snoc _ hk) hstray
        refine ⟨body, tail, hnext, fun hnil => ?_, hplace,
          Or.inl ⟨⟨hcalm, _, _, hp, hbarec, hk, hpassed⟩, hstray⟩⟩
        simp [hnil, strayAhead] at hstray

/-- What recovery reports is of the statement that it skips or of the next. -/
theorem skip_home (hs : Begins inputs source s)
    (hnew : New d (statement inputs s).calmed (statement inputs s).calmed.skipStatement) :
    ∃ body tail, Cuts (scan source) body tail ∧ body ++ tail ≠ [] ∧ Belongs source body tail d ∧
      (Regains (statement inputs s) (body ++ tail) ∧ d ∈ strayAhead (body ++ tail) ∨
        Meets (statement inputs s) tail) := by
  have hprev : (statement inputs s).previous.kind ≠ .semicolon := fun hprev => by
    rw [skip_stop (s := (statement inputs s).calmed) hprev] at hnew
    exact not_new_of_eq rfl hnew
  obtain ⟨t, ht, -⟩ := (skip_tells _).new hnew
  replace ht : t ∈ (statement inputs s).pending := ht
  obtain ⟨⟨front, hsource⟩, hsettled⟩ :=
    (statement_placed inputs hs.placed).suffix (List.ne_nil_of_mem ht)
  obtain ⟨ts, tail, hp, hbare, htail⟩ := exists_bare (statement inputs s).pending
  by_cases hstray : ∃ t ∈ ts, t.kind.isUnexpected = true
  · obtain ⟨u, hu, -, d', hspan, hskip⟩ :=
      skip_stray (s := (statement inputs s).calmed) rfl hp hprev hbare hsettled hstray
    obtain rfl : d = d' := by simpa using (new_iff hskip).mp hnew
    obtain ⟨before, us, rfl, hbefore, hus⟩ := exists_closed front
    have hbody : Bare (us ++ ts) := fun t ht => (List.mem_append.mp ht).elim (hus t) (hbare t)
    refine ⟨us ++ ts, tail, ⟨⟨before, by simp [← hsource, hp], hbefore⟩, hbody, htail⟩,
      fun hnil => ?_, ⟨u, by simp [places, hu], hspan⟩, Or.inr ⟨hprev, ts, hp, hbare, hstray⟩⟩
    simp [(List.append_eq_nil_iff.mp (List.append_eq_nil_iff.mp hnil).1).2] at hu
  · have hclean : ∀ t ∈ ts, t.kind.isUnexpected = false :=
      fun t ht => Bool.eq_false_iff.mpr fun hu => hstray ⟨t, ht, hu⟩
    have hskip := skip_clean (s := (statement inputs s).calmed) rfl hp hprev
      (fun t ht => ⟨hclean t ht, hbare t ht⟩) htail
    have hmem : d ∈ strayAhead tail.tail := by simpa using (new_iff hskip).mp hnew
    cases tail with
    | nil => simp [strayAhead] at hmem
    | cons closing after =>
        have hk : closing.kind = .semicolon := htail.resolve_left (by simp)
        have hbehind : scan source = (front ++ ts ++ [closing]) ++ after := by
          simp [← hsource, hp]
        obtain ⟨body, tail, hcuts, rfl, hplace⟩ := stray_home hbehind (.snoc _ hk) hmem
        refine ⟨body, tail, hcuts, fun hnil => ?_, hplace,
          Or.inl ⟨⟨hprev, ts, closing, hp, hbare, hk, hclean⟩, hmem⟩⟩
        simp [hnil, strayAhead] at hmem

end

section

variable {body tail : List Token} {s : State} {d : Diagnostic}

/-- An unexpected character that a statement opens with. -/
theorem unexpected_of_stray (h : Cuts (scan source) body tail)
    (hstray : d ∈ strayAhead (body ++ tail)) : (kindAhead body).isUnexpected = true := by
  obtain ⟨t, after, c, hts, hk, -⟩ := mem_strayAhead_iff.mp hstray
  cases body with
  | nil =>
      rw [List.nil_append] at hts
      subst hts
      exact absurd (hk.symm.trans (h.closed.resolve_left (by simp))) (by simp)
  | cons b bs =>
      cases hts
      simp [hk, Token.Kind.isUnexpected]

theorem Reaches.attended {ts : List Token} (h : Reaches inputs s ts)
    (hs : Begins inputs source s) : Attended inputs source ts := by
  obtain ⟨hcalm, us, semicolon, hp, hbare, hk, hpassed⟩ := h
  exact .read hs hcalm hp hbare hk hpassed

theorem Regains.attended {ts : List Token} (h : Regains (statement inputs s) ts)
    (hs : Begins inputs source s) (hne : s.pending ≠ [])
    (hpanic : (statement inputs s).panicking = true) : Attended inputs source ts := by
  obtain ⟨hprev, us, semicolon, hp, hbare, hk, hclean⟩ := h
  exact .skipped ⟨s, hs, hne, hpanic, hprev, hp⟩ hbare hk hclean

end

/-! ## What is there to be reported is reported -/

theorem start_diagnostics (source : String) :
    (State.start [] (scan source) (endOf source)).diagnostics =
      (strayAhead (scan source)).toArray := by
  cases hscan : scan source with
  | nil => rfl
  | cons t rest =>
      by_cases hsettled : Settled (t :: rest)
      · rw [start_of_settled [] hsettled, strayAhead_of_settled hsettled]
      · obtain ⟨c, hc⟩ : ∃ c, t.kind = .unexpected c := by
          rw [settled_cons_iff] at hsettled
          simpa using hsettled
        rw [State.start, State.settle_of_unexpected rfl hc]
        simp [strayAhead, hc, at']

section

variable {body tail ts : List Token} {s : State} {d : Diagnostic}

/-- The unexpected character that a statement opens with is wrong. -/
theorem exists_stray (source : String) (tail : List Token)
    (hk : (kindAhead body).isUnexpected = true) :
    ∃ d ∈ strayAhead (body ++ tail), Belongs source body tail d ∧ d.problem.isSyntax = true := by
  cases body with
  | nil => cases hk
  | cons t bs =>
      obtain ⟨c, hc⟩ : ∃ c, t.kind = .unexpected c := by
        cases hkind : t.kind <;> simp_all [Token.Kind.isUnexpected]
      exact ⟨at' (.unexpectedCharacter c) t, by simp [strayAhead, hc],
        ⟨t, by simp [places], rfl⟩, rfl⟩

theorem Reaches.new (h : Reaches inputs s ts) (hread : Readable s.pending)
    (hd : d ∈ strayAhead ts) : New d s (statement inputs s) := by
  obtain ⟨hcalm, us, semicolon, hp, hbare, hk, hpassed⟩ := h
  exact new_of_stray hcalm hread hp hbare hk hpassed hd

theorem Regains.new (h : Regains s ts) (hd : d ∈ strayAhead ts) :
    New d s.calmed s.calmed.skipStatement := by
  obtain ⟨hprev, us, semicolon, hp, hbare, hk, hclean⟩ := h
  have hskip := skip_clean (s := s.calmed) rfl hp hprev
    (fun t ht => ⟨hclean t ht, hbare t ht⟩) (Or.inr hk)
  exact (new_iff hskip).mpr (by simpa using hd)

/-- What recovery skips with an unexpected character in it is the end of the
statement. -/
theorem Meets.within (h : Cuts (scan source) body tail) (hs : Begins inputs source s)
    (hmeets : Meets (statement inputs s) tail) :
    ∃ us, (statement inputs s).pending = us ++ tail ∧ us <:+ body ∧
      Settled (statement inputs s).pending ∧ ∃ t ∈ us, t.kind.isUnexpected = true := by
  obtain ⟨-, us, hp, hbare, hstray⟩ := hmeets
  obtain ⟨before, hwhole, hbefore⟩ := h.whole
  have hne : (statement inputs s).pending ≠ [] := by
    obtain ⟨t, ht, -⟩ := hstray
    rw [hp]
    exact List.append_ne_nil_of_left_ne_nil (List.ne_nil_of_mem ht) tail
  obtain ⟨⟨front, hsource⟩, hsettled⟩ := (statement_placed inputs hs.placed).suffix hne
  have hends : before ++ body = front ++ us := by
    refine (List.append_left_inj tail).mp ?_
    rw [List.append_assoc, ← hwhole, ← hsource, hp, List.append_assoc]
  exact ⟨us, hp, suffix_of_bare hbefore hbare hends, hsettled, hstray⟩

theorem Meets.new (h : Cuts (scan source) body tail) (hs : Begins inputs source s)
    (hmeets : Meets (statement inputs s) tail) :
    ∃ d, New d (statement inputs s).calmed (statement inputs s).calmed.skipStatement ∧
      Belongs source body tail d := by
  obtain ⟨us, hp, hus, hsettled, hstray⟩ := hmeets.within h hs
  obtain ⟨t, ht, -, d, hspan, hskip⟩ :=
    skip_stray (s := (statement inputs s).calmed) rfl hp hmeets.stands (h.bare.suffix hus)
      hsettled hstray
  exact ⟨d, (new_iff hskip).mpr (by simp), t, List.mem_append_left _ (hus.subset ht), hspan⟩

/-- A round that comes calmly to tokens leaves no more than them. -/
theorem Reaches.ends (h : Reaches inputs s ts) (hread : Readable s.pending) :
    (statement inputs s).pending.length ≤ ts.length := by
  obtain ⟨hs, us, semicolon, hp, -, hk, ⟨e, he, hn⟩ | ⟨ms, hb⟩⟩ := h
  · have hpending : (expression inputs .assignment s).pending = semicolon :: ts := by
      rw [expression_formed hs hread hp hk he hn, State.after_pending]
    rw [statement_of_semicolon hpending hk, State.pending_emit, (State.rests_advance _).pending,
      hpending]
    exact (clear_suffix ts).length_le
  · obtain ⟨code, last, hgoes⟩ := hb.goes inputs s rfl hs hread
    refine Nat.le_trans (hgoes.trans (end_goes inputs s)).pending.length_le ?_
    rw [State.missOperand, State.pending_report, (State.rests_advance _).pending,
      State.after_pending]
    exact (clear_suffix ts).length_le

theorem Reaches.begins (h : Reaches inputs s ts) : ts.length < s.pending.length := by
  obtain ⟨-, us, semicolon, hp, -⟩ := h
  rw [hp, List.length_append, List.length_cons]
  omega

/-- A statement that is read and is wrong has a problem reported in it, and one
of form if the reading does not come to its end. -/
theorem Takes.speaks (h : Cuts (scan source) body tail) (hs : Begins inputs source s)
    (htakes : Takes inputs s body tail) :
    (∃ d, New d s (statement inputs s) ∧ Belongs source body tail d) ∧
      (tail.length < (statement inputs s).pending.length →
        ∃ d, New d s (statement inputs s) ∧ Belongs source body tail d ∧
          d.problem.isSyntax = true) := by
  obtain ⟨hcalm, hp, hwrong⟩ := htakes
  have hbare : Bare (clear body) := h.bare.suffix (clear_suffix body)
  have hzone : ∀ {d : Diagnostic}, (∃ t ∈ clear body ++ [tail.headD s.final], d.span = t.span) →
      Belongs source body tail d := by
    rintro d ⟨t, ht, hspan⟩
    rw [hs.final] at ht
    exact ⟨t, List.mem_append.mpr ((List.mem_append.mp ht).imp_left clear_mem), hspan⟩
  by_cases hpassed : ∃ semicolon rest, tail = semicolon :: rest ∧
      (Formed (clear body) ∨ ∃ ms, Breaks tail .assignment s.pending ms)
  · obtain ⟨semicolon, rest, rfl, hpassed⟩ := hpassed
    have hk : semicolon.kind = .semicolon := h.closed.resolve_left (by simp)
    have hreaches : Reaches inputs s rest := ⟨hcalm, _, _, hp, hbare, hk, hpassed⟩
    have hends := hreaches.ends hs.readable
    obtain ⟨hw, hdeferred⟩ := hwrong _ _ rfl
    obtain ⟨d, hnew, hd⟩ := exists_new_of_wrong hcalm hs.readable hp hbare hk hw hdeferred
    refine ⟨⟨d, hnew, hzone hd⟩, fun hlt => ?_⟩
    rw [List.length_cons] at hlt
    omega
  · obtain ⟨htells, hpanic⟩ := statement_within hcalm hs.readable hp hbare h.closed
      fun hk hor => hpassed <| by
        cases tail with
        | nil => cases hk
        | cons semicolon rest => exact ⟨semicolon, rest, rfl, hor⟩
    obtain ⟨d, hnew, hform⟩ := exists_form (Speaks.stepwise.statement inputs s) hcalm hpanic
    have hd := hzone (htells.new hnew)
    exact ⟨⟨d, hnew, hd⟩, fun _ => ⟨d, hnew, hd, hform⟩⟩

end

end Pixelwise.Compiler
