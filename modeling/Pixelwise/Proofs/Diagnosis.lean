/-
Diagnosis — which statements have their problems reported.

A compilation goes on after a problem, but it does not look at every
statement.  A statement that breaks off has its semicolon taken for an
operand, and then the compiler reads on in panic, beyond the statement, until
it meets a token that it can stop at.  What it takes on the way is lost.

`Heard` says what a statement needs to have a problem of its own reported: a
round begins at it and finds something wrong (`read`), or an unexpected
character is met in it, at its beginning (`opens`) or by recovery
(`skipped`).

Main statement: `diagnosed_iff_heard`, that these are all the statements with
a problem reported inside them.
-/
import Pixelwise.Proofs.Rounds

namespace Pixelwise.Compiler

open Syntax Token

variable {inputs : List String} {source : String}

/-- The compiler hears of a statement that something is wrong with it. -/
inductive Heard (inputs : List String) (source : String) (body : List Token) (semicolon : Token)
    (rest : List Token) : Prop
  /-- It opens with an unexpected character, to which the compiler comes
  calmly. -/
  | opens : (kindAhead body).isUnexpected = true →
      Attended inputs source (body ++ semicolon :: rest) → Heard inputs source body semicolon rest
  /-- A round begins at it and finds it wrong. -/
  | read {s : State} : Begins inputs source s → s.panicking = false →
      s.pending = clear body ++ semicolon :: rest → Wrong inputs s.assigned (clear body) →
      ¬ Deferred inputs s semicolon rest → Heard inputs source body semicolon rest
  /-- Recovery meets an unexpected character in it. -/
  | skipped {ts : List Token} : Skips inputs source (ts ++ semicolon :: rest) → Bare ts →
      (∃ t ∈ ts, t.kind.isUnexpected = true) → Heard inputs source body semicolon rest

/-! ## What is reported inside a statement is heard -/

section

variable {body rest : List Token} {semicolon : Token} {s : State} {d : Diagnostic}

/-- What reading a statement reports. -/
theorem heard_of_statement (h : Splits (scan source) body semicolon rest)
    (hd : Inside body semicolon d) (hs : Begins inputs source s) (hne : s.pending ≠ [])
    (hnew : New d s (statement inputs s)) : Heard inputs source body semicolon rest := by
  obtain ⟨us, tail, hcuts, hnil, hplace, hhome⟩ := statement_home hs hne hnew
  obtain ⟨rfl, rfl⟩ := h.home hcuts hnil hplace hd
  rcases hhome with ⟨hreaches, hstray⟩ | ⟨hcalm, hp, hwrong⟩
  · exact .opens (unexpected_of_stray hcuts hstray) (hreaches.attended hs)
  · exact .read hs hcalm hp (hwrong _ _ rfl).1 (hwrong _ _ rfl).2

/-- What recovery reports. -/
theorem heard_of_skip (h : Splits (scan source) body semicolon rest)
    (hd : Inside body semicolon d) (hs : Begins inputs source s) (hne : s.pending ≠ [])
    (hpanic : (statement inputs s).panicking = true)
    (hnew : New d (statement inputs s).calmed (statement inputs s).calmed.skipStatement) :
    Heard inputs source body semicolon rest := by
  obtain ⟨us, tail, hcuts, hnil, hplace, hhome⟩ := skip_home hs hnew
  obtain ⟨rfl, rfl⟩ := h.home hcuts hnil hplace hd
  rcases hhome with ⟨hregains, hstray⟩ | ⟨hprev, ts, hp, hbare, hstray⟩
  · exact .opens (unexpected_of_stray hcuts hstray) (hregains.attended hs hne hpanic)
  · exact .skipped ⟨s, hs, hne, hpanic, hprev, hp⟩ hbare hstray

/-- An unexpected character that is reported behind a semicolon. -/
theorem heard_of_stray (h : Splits (scan source) body semicolon rest)
    (hd : Inside body semicolon d) {before ts : List Token} (hsource : scan source = before ++ ts)
    (hbefore : Closed before) (hts : Attended inputs source ts) (hstray : d ∈ strayAhead ts) :
    Heard inputs source body semicolon rest := by
  obtain ⟨us, tail, hcuts, rfl, hplace⟩ := stray_home hsource hbefore hstray
  have hnil : us ++ tail ≠ [] := fun hnil => by simp [hnil, strayAhead] at hstray
  obtain ⟨rfl, rfl⟩ := h.home hcuts hnil hplace hd
  exact .opens (unexpected_of_stray hcuts hstray) hts

end

/-! ## What is heard is reported -/

/-- All that a compilation reports. -/
theorem mem_finish_iff {d : Diagnostic} :
    d ∈ (finish [] inputs source).diagnostics ↔
      d ∈ strayAhead (scan source) ∨
        ∃ s, Begins inputs source s ∧ s.pending ≠ [] ∧ New d s (round inputs s) := by
  obtain ⟨ds, hds⟩ := statements_diagnostics inputs
    (State.start [] (scan source) (endOf source))
  rw [finish, hds, Array.mem_append, ← new_iff hds, new_statements_iff, start_diagnostics]
  simp [Begins]

theorem mem_finish_of_new {s : State} {d : Diagnostic} (hs : Begins inputs source s)
    (hne : s.pending ≠ []) (hnew : New d s (statement inputs s)) :
    d ∈ (finish [] inputs source).diagnostics :=
  mem_finish_iff.mpr (Or.inr ⟨s, hs, hne, new_round_iff.mpr (Or.inl hnew)⟩)

theorem mem_finish_of_skip {s : State} {d : Diagnostic} (hs : Begins inputs source s)
    (hne : s.pending ≠ []) (hpanic : (statement inputs s).panicking = true)
    (hnew : New d (statement inputs s).calmed (statement inputs s).calmed.skipStatement) :
    d ∈ (finish [] inputs source).diagnostics :=
  mem_finish_iff.mpr (Or.inr ⟨s, hs, hne, new_round_iff.mpr (Or.inr ⟨hpanic, hnew⟩)⟩)

theorem Attended.reported {ts : List Token} (h : Attended inputs source ts) {d : Diagnostic}
    (hd : d ∈ strayAhead ts) : d ∈ (finish [] inputs source).diagnostics := by
  cases h with
  | first => exact mem_finish_iff.mpr (Or.inl hd)
  | read hs hcalm hp hbare hk hpassed =>
      refine mem_finish_of_new hs (by simp [hp]) ?_
      exact Reaches.new ⟨hcalm, _, _, hp, hbare, hk, hpassed⟩ hs.readable hd
  | skipped hskips hbare hk hclean =>
      obtain ⟨s, hs, hne, hpanic, hprev, hp⟩ := hskips
      exact mem_finish_of_skip hs hne hpanic (Regains.new ⟨hprev, _, _, hp, hbare, hk, hclean⟩ hd)

theorem Heard.reported {body rest : List Token} {semicolon : Token}
    (h : Splits (scan source) body semicolon rest)
    (hheard : Heard inputs source body semicolon rest) :
    ∃ d ∈ (finish [] inputs source).diagnostics, Inside body semicolon d := by
  cases hheard with
  | opens hk hattended =>
      obtain ⟨d, hd, ⟨t, ht, hspan⟩, -⟩ := exists_stray source (semicolon :: rest) hk
      exact ⟨d, hattended.reported hd, inside_of_mem h ht hspan⟩
  | @read s hs hcalm hp hwrong hdeferred =>
      have htakes : Takes inputs s body (semicolon :: rest) :=
        ⟨hcalm, hp, by rintro _ _ ⟨⟩; exact ⟨hwrong, hdeferred⟩⟩
      obtain ⟨⟨d, hnew, t, ht, hspan⟩, -⟩ := htakes.speaks h.cuts hs
      exact ⟨d, mem_finish_of_new hs (by simp [hp]) hnew, inside_of_mem h ht hspan⟩
  | skipped hskips hbare hstray =>
      obtain ⟨s, hs, hne, hpanic, hprev, hp⟩ := hskips
      obtain ⟨d, hnew, t, ht, hspan⟩ := Meets.new h.cuts hs ⟨hprev, _, hp, hbare, hstray⟩
      exact ⟨d, mem_finish_of_skip hs hne hpanic hnew, inside_of_mem h ht hspan⟩

end Pixelwise.Compiler

namespace Pixelwise

open Syntax Compiler Token

/-! ## Faulty statements -/

/-- The compiler reports a problem inside a statement. -/
def Diagnosed (inputs : List String) (source : String) (body : List Token) (semicolon : Token) :
    Prop :=
  ∃ ds, compile inputs source = .error ds ∧ ∃ d ∈ ds, Inside body semicolon d

/-- Something is wrong with a statement, whatever comes before it. -/
inductive Faulty (inputs : List String) (source : String) (body : List Token) : Prop
  /-- A character in it starts no token. -/
  | unexpected {t : Token} : t ∈ body → t.kind.isUnexpected = true → Faulty inputs source body
  /-- It is no expression. -/
  | malformed : (¬ ∃ e, Derives .assignment body e) → Faulty inputs source body
  /-- It reads a name that is no input and none of the library, and the
  target of no assignment in the source. -/
  | unknown {e : Expr} {t : Token} : Derives .assignment body e →
      (.read t ∈ e.mentions ∨ .opened t ∈ e.mentions) → t.lexeme ∉ inputs → ¬ isLibrary t →
      ¬ Target (scan source) t.lexeme → Faulty inputs source body

variable {inputs : List String} {source : String}

theorem diagnosed_iff {body : List Token} {semicolon : Token} :
    Diagnosed inputs source body semicolon ↔
      ∃ d ∈ (finish [] inputs source).diagnostics, Inside body semicolon d := by
  rw [Diagnosed, compile, compileAfter, State.result]
  constructor
  · rintro ⟨ds, hds, d, hd, hinside⟩
    split at hds
    · cases hds
    · cases hds
      exact ⟨d, by simpa using hd, hinside⟩
  · rintro ⟨d, hd, hinside⟩
    have hne : (finish [] inputs source).diagnostics.isEmpty = false := by
      rw [Bool.eq_false_iff]
      intro hempty
      simp [Array.isEmpty_iff.mp hempty] at hd
    rw [if_neg (by simp [hne])]
    exact ⟨_, rfl, d, by simpa using hd, hinside⟩

/-- A faulty statement is wrong when its round begins: the names assigned by
then are targets in the source. -/
theorem Faulty.wrong {body rest : List Token} {semicolon : Token}
    (h : Faulty inputs source body) {s : State} (hs : Begins inputs source s)
    (hcalm : s.panicking = false) (hp : s.pending = body ++ semicolon :: rest)
    (hk : semicolon.kind = .semicolon) : Wrong inputs s.assigned body := by
  intro e he hclean
  cases h with
  | unexpected ht hu => exact absurd (hu.symm.trans (he.language _ ht).1) (by simp)
  | malformed hmalformed => exact hmalformed ⟨e, he⟩
  | unknown he' hread hinput hlibrary htarget =>
      have hends := continues_of_closing rest (Or.inr (Or.inr hk))
      have hc := he.climbs hends
      obtain ⟨rfl, -⟩ := hc.unique (he'.climbs hends)
      rw [← hp] at hc
      have hexp := hc.expression_eq inputs s rfl hcalm hs.readable (narrow_of_diagnose _ _ hclean)
        (settled_of_kind hk rfl) fun _ => by simp [hk]
      have hreads : Reads inputs (.expression .assignment) s _ 0 := reads_expression .assignment s
      have hplaced := hreads.placed trivial hs.placed
      rw [hexp] at hplaced
      rcases known_of_diagnose hclean hread with hl | hi | ha
      · exact hlibrary hl
      · exact hinput hi
      · exact htarget (hplaced.targets _ ha)

/-- The statements of a source that have a problem reported inside them are
those that the compiler hears of.  So a faulty statement is diagnosed if a
calm round begins at it, unless it breaks off and what is behind it is
reported in its place. -/
theorem diagnosed_iff_heard {body rest : List Token} {semicolon : Token}
    (h : Splits (scan source) body semicolon rest) :
    (Diagnosed inputs source body semicolon ↔ Heard inputs source body semicolon rest) ∧
      (Faulty inputs source body → ∀ s, Begins inputs source s → s.panicking = false →
        s.pending = body ++ semicolon :: rest → ¬ Deferred inputs s semicolon rest →
        Diagnosed inputs source body semicolon) := by
  have hiff : Diagnosed inputs source body semicolon ↔
      Heard inputs source body semicolon rest := by
    rw [diagnosed_iff]
    constructor
    · rintro ⟨d, hd, hinside⟩
      rcases mem_finish_iff.mp hd with hd | ⟨s, hs, hne, hnew⟩
      · exact heard_of_stray h hinside (List.nil_append _).symm (by simp [Closed]) .first hd
      · rcases new_round_iff.mp hnew with hnew | ⟨hpanic, hnew⟩
        · exact heard_of_statement h hinside hs hne hnew
        · exact heard_of_skip h hinside hs hne hpanic hnew
    · exact fun hheard => hheard.reported h
  refine ⟨hiff, fun hfaulty s hs hcalm hp hdeferred => hiff.mpr ?_⟩
  have hsettled : clear body = body := by
    obtain ⟨before, ts, -, hts, -⟩ := hs.stands (by simp [hp])
    have := settled_clear ts
    rw [← hts, hp] at this
    cases body with
    | nil => rfl
    | cons t bs => exact clear_of_settled this
  refine .read hs hcalm (by rw [hsettled, hp]) ?_ hdeferred
  rw [hsettled]
  exact hfaulty.wrong hs hcalm hp h.closed

/-- A name that nothing gives a value to is reported, though the statement
before it broke off: recovery has taken its semicolon. -/
theorem diagnosed_undefined :
    Splits (scan "1 2;x;") [⟨.identifier, "x", 1, ⟨4, 5⟩⟩] ⟨.semicolon, ";", 1, ⟨5, 6⟩⟩ [] ∧
      ¬ (∃ e, Derives .assignment
        [⟨.number, "1", 1, ⟨0, 1⟩⟩, ⟨.number, "2", 1, ⟨2, 3⟩⟩] e) ∧
      Diagnosed [] "1 2;x;" [⟨.identifier, "x", 1, ⟨4, 5⟩⟩] ⟨.semicolon, ";", 1, ⟨5, 6⟩⟩ := by
  have hscan : scan "1 2;x;" =
      [⟨.number, "1", 1, ⟨0, 1⟩⟩, ⟨.number, "2", 1, ⟨2, 3⟩⟩, ⟨.semicolon, ";", 1, ⟨3, 4⟩⟩] ++
        ([⟨.identifier, "x", 1, ⟨4, 5⟩⟩] ++ ⟨.semicolon, ";", 1, ⟨5, 6⟩⟩ :: []) := by
    with_unfolding_all rfl
  have hsplits : Splits (scan "1 2;x;") [⟨.identifier, "x", 1, ⟨4, 5⟩⟩]
      ⟨.semicolon, ";", 1, ⟨5, 6⟩⟩ [] :=
    ⟨⟨_, hscan, by simp [Closed]⟩, by simp [Bare], rfl⟩
  -- the second round begins at `x`, calmly
  obtain ⟨s, hs⟩ : ∃ s, s = round [] (State.start [] (scan "1 2;x;") (endOf "1 2;x;")) := ⟨_, rfl⟩
  have hbegins : Begins [] "1 2;x;" s := by
    rw [hs]
    exact .next .refl (by with_unfolding_all decide)
  have hcalm : s.panicking = false := by
    rw [hs]
    with_unfolding_all rfl
  have hpending : s.pending =
      [⟨.identifier, "x", 1, ⟨4, 5⟩⟩] ++ ⟨.semicolon, ";", 1, ⟨5, 6⟩⟩ :: [] := by
    rw [hs]
    with_unfolding_all rfl
  have hfaulty : Faulty [] "1 2;x;" [⟨.identifier, "x", 1, ⟨4, 5⟩⟩] := by
    refine .unknown (.loosen (.name rfl) (by decide)) (Or.inl List.mem_cons_self) (by simp)
      (by decide) ?_
    intro htarget
    obtain ⟨t, ht, hequal⟩ := htarget.exists_equal
    simp only [hscan, List.cons_append, List.nil_append, List.mem_cons, List.not_mem_nil,
      or_false] at ht
    rcases ht with rfl | rfl | rfl | rfl | rfl <;> cases hequal
  refine ⟨hsplits, ?_, (diagnosed_iff_heard hsplits).2 hfaulty s hbegins hcalm hpending
    fun hdeferred => hdeferred.1 rfl⟩
  rintro ⟨e, he⟩
  have hends := continues_of_closing (t := ⟨.semicolon, ";", 1, ⟨3, 4⟩⟩) [] (Or.inr (Or.inr rfl))
  obtain ⟨hopens, hchains⟩ := he.climbs hends
  cases hopens with
  | number _ =>
      cases hchains with
      | more hsign => cases hsign
  | name hident => cases hident
  | group hparen => cases hparen
  | call hident => cases hident
  | unary hsign => cases hsign
  | assign hident => cases hident

/-- The first semicolon of `;;` is taken for an operand, and the second one
is then taken in panic: the empty statement that it ends is not diagnosed. -/
theorem faulty_undiagnosed :
    ¬ ∀ (inputs : List String) (source : String) (body rest : List Token) (semicolon : Token),
      Splits (scan source) body semicolon rest → Faulty inputs source body →
      Diagnosed inputs source body semicolon := by
  intro h
  have hscan : scan ";;" =
      [⟨.semicolon, ";", 1, ⟨0, 1⟩⟩] ++ ([] ++ ⟨.semicolon, ";", 1, ⟨1, 2⟩⟩ :: []) := by
    with_unfolding_all rfl
  have hcompile : compile [] ";;" = .error [⟨.expectedExpression, 1, ⟨0, 1⟩⟩] := by
    with_unfolding_all rfl
  have hsplits : Splits (scan ";;") [] ⟨.semicolon, ";", 1, ⟨1, 2⟩⟩ [] :=
    ⟨⟨_, hscan, by simp [Closed]⟩, by simp [Bare], rfl⟩
  have hfaulty : Faulty [] ";;" [] := by
    refine .malformed ?_
    rintro ⟨e, he⟩
    simpa using he.last_mem
  obtain ⟨ds, hds, d, hd, hstart, -⟩ := h [] ";;" [] [] _ hsplits hfaulty
  rw [hcompile] at hds
  cases hds
  obtain rfl := List.mem_singleton.mp hd
  exact absurd hstart (by decide)

end Pixelwise
