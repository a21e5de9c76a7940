/-
Cascading — how often a compilation speaks of one statement.

In one leg of a compilation a problem of form is the last that is reported.
But panic ends with the leg, and three legs can speak of the same statement:
the one in which the compiler comes to it and sees that it opens with an
unexpected character (`OpensStray`), the one that reads it (`ReadWrong`), and
the recovery that skips the rest of it and meets an unexpected character
there (`SkipsStray`).  Where they begin and end tells them apart and puts
them in order (`Leg.speaks`).

Main statement: `orderly_iff_spoken_once`, that a problem of form is the last
to be reported of a statement exactly if no two of these legs speak of it.
-/
import Mathlib.Data.List.Pairwise
import Pixelwise.Proofs.Legs

namespace Pixelwise.Compiler

open Syntax Token

variable {inputs : List String} {source : String}

/-! ## The legs that speak of a statement -/

/-- The statement opens with an unexpected character, to which the compiler
comes calmly. -/
def OpensStray (inputs : List String) (source : String) (body tail : List Token) : Prop :=
  (kindAhead body).isUnexpected = true ∧ Attended inputs source (body ++ tail)

/-- A calm round begins at the statement and finds it wrong. -/
def ReadWrong (inputs : List String) (source : String) (body tail : List Token) : Prop :=
  ∃ s, Begins inputs source s ∧ s.pending ≠ [] ∧ Takes inputs s body tail

/-- Recovery skips the rest of the statement, and an unexpected character in
it. -/
def SkipsStray (inputs : List String) (source : String) (tail : List Token) : Prop :=
  ∃ s, Begins inputs source s ∧ s.pending ≠ [] ∧ (statement inputs s).panicking = true ∧
    Meets (statement inputs s) tail

/-- At most one leg speaks of the statement. -/
structure SpokenOnce (inputs : List String) (source : String) (body tail : List Token) : Prop where
  opensRead : ¬ (OpensStray inputs source body tail ∧ ReadWrong inputs source body tail)
  opensSkips : ¬ (OpensStray inputs source body tail ∧ SkipsStray inputs source tail)
  readSkips : ¬ (ReadWrong inputs source body tail ∧ SkipsStray inputs source tail)

section

variable {body tail : List Token} {d : Diagnostic} {l : Leg}

/-- A leg that speaks of a statement is one of three, by where it begins and
ends. -/
theorem Leg.speaks (h : Cuts (scan source) body tail) (hl : l ∈ legs inputs source)
    (hd : d ∈ l.reports inputs source) (hplace : Belongs source body tail d) :
    (OpensStray inputs source body tail ∧ (body ++ tail).length < l.before inputs source ∧
        l.after inputs source ≤ (body ++ tail).length) ∨
      (ReadWrong inputs source body tail ∧
        l.before inputs source = (clear body ++ tail).length ∧
        l.after inputs source < l.before inputs source) ∨
      (SkipsStray inputs source tail ∧ tail.length < l.before inputs source ∧
        l.after inputs source ≤ tail.length) := by
  have hsame : ∀ {us rest : List Token}, Cuts (scan source) us rest → Belongs source us rest d →
      us = body ∧ rest = tail := by
    rintro us rest h' ⟨t', ht', hspan'⟩
    obtain ⟨t, ht, hspan⟩ := hplace
    exact h.unique h' ht ht' (hspan.symm.trans hspan')
  rcases mem_legs_iff.mp hl with rfl | ⟨s, hs, hne, rfl | rfl⟩
  · obtain ⟨us, rest, hcuts, hall, hhome⟩ :=
      stray_home (List.nil_append _).symm (by simp [Closed]) hd
    obtain ⟨rfl, rfl⟩ := hsame hcuts hhome
    have hstray : d ∈ strayAhead (us ++ rest) := by
      rw [hall]
      exact hd
    refine Or.inl ⟨⟨unexpected_of_stray h hstray, hall ▸ .first⟩, ?_, ?_⟩
    · simp [before, hall]
    · rw [after, (rests_start source).pending, hall]
      exact (clear_suffix _).length_le
  · obtain ⟨us, rest, hcuts, -, hhome, hspeaks⟩ :=
      statement_home hs hne (mem_reading_iff.mp hd)
    obtain ⟨rfl, rfl⟩ := hsame hcuts hhome
    rcases hspeaks with ⟨hreaches, hstray⟩ | htakes
    · exact Or.inl ⟨⟨unexpected_of_stray h hstray, hreaches.attended hs⟩, hreaches.begins,
        hreaches.ends hs.readable⟩
    · refine Or.inr (Or.inl ⟨⟨s, hs, hne, htakes⟩, congrArg List.length htakes.place, ?_⟩)
      have := statement_pending_le inputs s
      have := List.length_pos_iff.mpr hne
      simp only [before, after]
      omega
  · obtain ⟨hpanic, hnew⟩ := mem_recovery_iff.mp hd
    obtain ⟨us, rest, hcuts, -, hhome, hspeaks⟩ := skip_home hs hnew
    obtain ⟨rfl, rfl⟩ := hsame hcuts hhome
    rcases hspeaks with ⟨hregains, hstray⟩ | hmeets
    · exact Or.inl ⟨⟨unexpected_of_stray h hstray, hregains.attended hs hne hpanic⟩,
        hregains.begins, hregains.ends hpanic⟩
    · exact Or.inr (Or.inr ⟨⟨s, hs, hne, hpanic, hmeets⟩, hmeets.begins,
        Nat.le_trans (hmeets.ends h.closed hpanic) (Nat.sub_le ..)⟩)

/-- The leg that comes to an unexpected character at the beginning of a
statement. -/
theorem OpensStray.leg (hopens : OpensStray inputs source body tail) :
    ∃ l ∈ legs inputs source, (body ++ tail).length < l.before inputs source ∧
      ∃ d ∈ l.reports inputs source, Belongs source body tail d ∧ d.problem.isSyntax = true := by
  obtain ⟨hk, hattended⟩ := hopens
  obtain ⟨d, hstray, hplace, hform⟩ := exists_stray source tail hk
  suffices hleg : ∃ l ∈ legs inputs source, (body ++ tail).length < l.before inputs source ∧
      d ∈ l.reports inputs source by
    obtain ⟨l, hl, hbefore, hd⟩ := hleg
    exact ⟨l, hl, hbefore, d, hd, hplace, hform⟩
  generalize body ++ tail = ts at hattended hstray
  cases hattended with
  | first => exact ⟨.opening, List.mem_cons_self, Nat.lt_succ_self _, hstray⟩
  | @read s _ _ _ hs hcalm hp hbare hk hpassed =>
      have hreaches : Reaches inputs s ts := ⟨hcalm, _, _, hp, hbare, hk, hpassed⟩
      exact ⟨.reading s, mem_legs_iff.mpr (Or.inr ⟨s, hs, by simp [hp], Or.inl rfl⟩),
        hreaches.begins, mem_reading_iff.mpr (hreaches.new hs.readable hstray)⟩
  | skipped hskips hbare hk hclean =>
      obtain ⟨s, hs, hne, hpanic, hprev, hp⟩ := hskips
      have hregains : Regains (statement inputs s) ts := ⟨hprev, _, _, hp, hbare, hk, hclean⟩
      exact ⟨.recovery s, mem_legs_iff.mpr (Or.inr ⟨s, hs, hne, Or.inr rfl⟩),
        hregains.begins, mem_recovery_iff.mpr ⟨hpanic, hregains.new hstray⟩⟩

/-- The leg that reads a statement and finds it wrong.  If it does not come to
the end of the statement, it reports a problem of form in it. -/
theorem ReadWrong.leg (h : Cuts (scan source) body tail)
    (hread : ReadWrong inputs source body tail) :
    ∃ s, .reading s ∈ legs inputs source ∧ s.pending.length ≤ (body ++ tail).length ∧
      0 < s.pending.length ∧ tail.length ≤ s.pending.length ∧
      (∃ d ∈ (Leg.reading s).reports inputs source, Belongs source body tail d) ∧
      (tail.length < (statement inputs s).pending.length →
        ∃ d ∈ (Leg.reading s).reports inputs source, Belongs source body tail d ∧
          d.problem.isSyntax = true) := by
  obtain ⟨s, hs, hne, htakes⟩ := hread
  refine ⟨s, mem_legs_iff.mpr (Or.inr ⟨s, hs, hne, Or.inl rfl⟩), ?_,
    List.length_pos_iff.mpr hne, ?_, by simpa only [mem_reading_iff] using htakes.speaks h hs⟩
  · have := (clear_suffix body).length_le
    rw [htakes.place, List.length_append, List.length_append]
    omega
  · rw [htakes.place, List.length_append]
    omega

/-- The leg that skips the end of a statement and reports an unexpected
character in it. -/
theorem SkipsStray.leg (h : Cuts (scan source) body tail) (hskips : SkipsStray inputs source tail) :
    ∃ s, .recovery s ∈ legs inputs source ∧
      (statement inputs s).pending.length ≤ (body ++ tail).length ∧
      tail.length < (statement inputs s).pending.length ∧
      (round inputs s).pending.length ≤ tail.length - 1 ∧
      ∃ d ∈ (Leg.recovery s).reports inputs source, Belongs source body tail d := by
  obtain ⟨s, hs, hne, hpanic, hmeets⟩ := hskips
  refine ⟨s, mem_legs_iff.mpr (Or.inr ⟨s, hs, hne, Or.inr rfl⟩), ?_, hmeets.begins,
    hmeets.ends h.closed hpanic, ?_⟩
  · obtain ⟨us, hp, hus, -⟩ := hmeets.within h hs
    have := hus.length_le
    rw [hp, List.length_append, List.length_append]
    omega
  · obtain ⟨d, hnew, hplace⟩ := hmeets.new h hs
    exact ⟨d, mem_recovery_iff.mpr ⟨hpanic, hnew⟩, hplace⟩

end

end Pixelwise.Compiler

namespace Pixelwise

open Syntax Compiler Token

variable {inputs : List String} {source : String} {body tail : List Token}

/-! ## Problems of form come last -/

/-- All that is wrong with a source. -/
def problems (inputs : List String) (source : String) : List Diagnostic :=
  match compile inputs source with
  | .ok _ => []
  | .error ds => ds

/-- What is reported of a statement: the problems at its places. -/
def reported (inputs : List String) (source : String) (body tail : List Token) :
    List Diagnostic :=
  (problems inputs source).filter fun d => d.span ∈ (places source body tail).map Token.span

theorem problems_eq : problems inputs source = (finish [] inputs source).diagnostics.toList := by
  rw [problems, compile, compileAfter, State.result]
  split
  · rename_i h
    split at h
    · rename_i hempty
      simpa using hempty
    · cases h
  · rename_i h
    split at h <;> cases h
    rfl

theorem belongs_iff {d : Diagnostic} :
    d.span ∈ (places source body tail).map Token.span ↔ Belongs source body tail d := by
  simp [Belongs, eq_comm]

/-- The later of two legs does not speak of a statement if the earlier one
has reported a problem of form in it. -/
def Quiets (inputs : List String) (source : String) (body tail : List Token) (l l' : Leg) :
    Prop :=
  ∀ d ∈ l.reports inputs source, Belongs source body tail d →
    ∀ e ∈ l'.reports inputs source, Belongs source body tail e → d.problem.isSyntax = false

theorem orderly_iff_legs :
    Orderly (reported inputs source body tail) ↔
      (legs inputs source).Pairwise (Quiets inputs source body tail) := by
  rw [orderly_iff, reported, List.pairwise_filter, problems_eq, finish_told,
    List.pairwise_flatMap]
  simp only [decide_eq_true_eq, belongs_iff]
  constructor
  · exact fun h => h.2.imp fun hquiet d hd hdplace e he heplace =>
      hquiet d hd e he hdplace heplace
  · exact fun h => ⟨fun l _ => l.reports_orderly.imp fun hname _ _ => hname,
      h.imp fun hquiet d hd e he hdplace heplace => hquiet d hd hdplace e he heplace⟩

theorem Quiets.silent {l l' : Leg} (h : Quiets inputs source body tail l l')
    (hd : ∃ d ∈ l.reports inputs source, Belongs source body tail d ∧ d.problem.isSyntax = true)
    (he : ∃ e ∈ l'.reports inputs source, Belongs source body tail e) : False := by
  obtain ⟨d, hd, hdplace, hform⟩ := hd
  obtain ⟨e, he, heplace⟩ := he
  exact absurd (hform.symm.trans (h d hd hdplace e he heplace)) (by simp)

/-- A leg that begins before another ends is the earlier one. -/
theorem quiets_of_before (horderly : Orderly (reported inputs source body tail)) {l l' : Leg}
    (hl : l ∈ legs inputs source) (hl' : l' ∈ legs inputs source) (hne : l ≠ l')
    (hbefore : l'.after inputs source < l.before inputs source) :
    Quiets inputs source body tail l l' ∧ l'.before inputs source ≤ l.after inputs source := by
  let Ordered (l l' : Leg) : Prop :=
    Quiets inputs source body tail l l' ∧ l'.before inputs source ≤ l.after inputs source
  have hpairwise : (legs inputs source).Pairwise fun l l' => Ordered l l' ∨ Ordered l' l :=
    ((orderly_iff_legs.mp horderly).and legs_pairwise).imp Or.inl
  have : Std.Symm fun l l' => Ordered l l' ∨ Ordered l' l := ⟨fun _ _ => Or.symm⟩
  rcases hpairwise.forall hl hl' hne with hordered | ⟨-, hle⟩
  · exact hordered
  · omega

/-- Behind the leg that sees an unexpected character at its beginning, none
speaks of a statement in good order. -/
theorem silent_of_opensStray (horderly : Orderly (reported inputs source body tail))
    (hopens : OpensStray inputs source body tail) {l : Leg} (hl : l ∈ legs inputs source)
    (hle : l.before inputs source ≤ (body ++ tail).length)
    (he : ∃ e ∈ l.reports inputs source, Belongs source body tail e) : False := by
  obtain ⟨first, hfirst, hbefore, hd⟩ := hopens.leg
  have hlt : l.before inputs source < first.before inputs source := Nat.lt_of_le_of_lt hle hbefore
  have hafter := Leg.after_le inputs source l
  have hne : first ≠ l := fun heq => absurd hlt (by simp [heq])
  exact (quiets_of_before horderly hfirst hl hne (by omega)).1.silent hd he

/-- Two legs that speak of a statement report more of it than one problem of
form at the end. -/
theorem spokenOnce_of_orderly (h : Cuts (scan source) body tail)
    (horderly : Orderly (reported inputs source body tail)) :
    SpokenOnce inputs source body tail where
  opensRead := by
    rintro ⟨hopens, hread⟩
    obtain ⟨s, hl, hle, -, -, he, -⟩ := ReadWrong.leg h hread
    exact silent_of_opensStray horderly hopens hl hle he
  opensSkips := by
    rintro ⟨hopens, hskips⟩
    obtain ⟨s, hl, hle, -, -, he⟩ := SkipsStray.leg h hskips
    exact silent_of_opensStray horderly hopens hl hle he
  readSkips := by
    rintro ⟨hread, hskips⟩
    obtain ⟨u, hl, -, hpos, hle, -, hform⟩ := ReadWrong.leg h hread
    obtain ⟨s, hl', -, hlt, hends, he⟩ := SkipsStray.leg h hskips
    -- the recovery ends behind the statement, so the reading was before it
    have hafter : (Leg.recovery s).after inputs source < (Leg.reading u).before inputs source := by
      simp only [Leg.after, Leg.before]
      omega
    obtain ⟨hquiets, hbefore⟩ := quiets_of_before horderly hl hl' (by simp) hafter
    -- and it begins in the statement, so the reading did not come to the end
    exact hquiets.silent (hform (Nat.lt_of_lt_of_le hlt hbefore)) he

/-- Two legs that speak of a statement are of different kinds: where one ends,
no other of its kind can begin. -/
theorem orderly_of_spokenOnce (h : Cuts (scan source) body tail)
    (honce : SpokenOnce inputs source body tail) :
    Orderly (reported inputs source body tail) := by
  obtain ⟨hopensRead, hopensSkips, hreadSkips⟩ := honce
  refine orderly_iff_legs.mpr (legs_pairwise.imp_of_mem ?_)
  intro l l' hl hl' hle d hd hdplace e he heplace
  exfalso
  rcases l.speaks h hl hd hdplace with ⟨hd, hbegins, hends⟩ | ⟨hd, hbegins, hends⟩ |
    ⟨hd, hbegins, hends⟩
  · rcases l'.speaks h hl' he heplace with ⟨-, hbegins', -⟩ | ⟨he, -⟩ | ⟨he, -⟩
    · omega
    · exact hopensRead ⟨hd, he⟩
    · exact hopensSkips ⟨hd, he⟩
  · rcases l'.speaks h hl' he heplace with ⟨he, -⟩ | ⟨-, hbegins', -⟩ | ⟨he, -⟩
    · exact hopensRead ⟨he, hd⟩
    · omega
    · exact hreadSkips ⟨hd, he⟩
  · rcases l'.speaks h hl' he heplace with ⟨he, -⟩ | ⟨he, -⟩ | ⟨-, hbegins', -⟩
    · exact hopensSkips ⟨he, hd⟩
    · exact hreadSkips ⟨he, hd⟩
    · omega

/-- Of a statement without unexpected characters only the leg speaks that
reads it. -/
theorem spokenOnce_of_clean (h : Cuts (scan source) body tail)
    (hclean : ∀ t ∈ body, t.kind.isUnexpected = false) : SpokenOnce inputs source body tail := by
  have hopens : ¬ OpensStray inputs source body tail := by
    rintro ⟨hk, -⟩
    cases body with
    | nil => cases hk
    | cons t bs => exact absurd (hk.symm.trans (hclean t List.mem_cons_self)) (by simp)
  have hskips : ¬ SkipsStray inputs source tail := by
    rintro ⟨s, hs, -, -, hmeets⟩
    obtain ⟨us, -, hus, -, t, ht, hk⟩ := hmeets.within h hs
    exact absurd (hk.symm.trans (hclean t (hus.subset ht))) (by simp)
  exact ⟨fun hboth => hopens hboth.1, fun hboth => hopens hboth.1, fun hboth => hskips hboth.2⟩

/-- A problem of form is the last to be reported of a statement, and the only
one of its kind, exactly if no two legs of the compilation speak of the
statement: one that sees that it opens with an unexpected character, one that
reads it, and one that skips the rest of it.  So this holds of every
statement without unexpected characters. -/
theorem orderly_iff_spoken_once (h : Cuts (scan source) body tail) :
    (Orderly (reported inputs source body tail) ↔ SpokenOnce inputs source body tail) ∧
      ((∀ t ∈ body, t.kind.isUnexpected = false) →
        Orderly (reported inputs source body tail)) :=
  ⟨⟨spokenOnce_of_orderly h, orderly_of_spokenOnce h⟩,
    fun hclean => orderly_of_spokenOnce h (spokenOnce_of_clean h hclean)⟩

/-- Recovery from a missing operand skips the operators behind it in
silence. -/
theorem orderly_missing_operand :
    let body : List Token := [⟨.identifier, "a", 1, ⟨0, 1⟩⟩, ⟨.equal, "=", 1, ⟨2, 3⟩⟩,
      ⟨.rightParen, ")", 1, ⟨4, 5⟩⟩, ⟨.rightParen, ")", 1, ⟨6, 7⟩⟩]
    let tail : List Token := [⟨.semicolon, ";", 1, ⟨7, 8⟩⟩]
    Cuts (scan "a = ) );") body tail ∧ (∀ t ∈ body, t.kind.isUnexpected = false) ∧
      Orderly (reported [] "a = ) );" body tail) ∧
      reported [] "a = ) );" body tail = [⟨.expectedExpression, 1, ⟨4, 5⟩⟩] := by
  intro body tail
  have hscan : scan "a = ) );" = [] ++ (body ++ tail) := by with_unfolding_all rfl
  have hcuts : Cuts (scan "a = ) );") body tail :=
    ⟨⟨[], hscan, by simp [Closed]⟩, by simp [Bare, body], Or.inr rfl⟩
  have hclean : ∀ t ∈ body, t.kind.isUnexpected = false := by decide
  exact ⟨hcuts, hclean, (orderly_iff_spoken_once hcuts).2 hclean, by with_unfolding_all rfl⟩

/-- In `1 2 @;` a semicolon is missing, and recovery, which panics no more,
reports the character that it skips. -/
theorem cascade_of_skipping :
    ¬ ∀ (inputs : List String) (source : String) (body tail : List Token),
      Cuts (scan source) body tail → Orderly (reported inputs source body tail) := by
  intro h
  let body : List Token := [⟨.number, "1", 1, ⟨0, 1⟩⟩, ⟨.number, "2", 1, ⟨2, 3⟩⟩,
    ⟨.unexpected '@', "@", 1, ⟨4, 5⟩⟩]
  let tail : List Token := [⟨.semicolon, ";", 1, ⟨5, 6⟩⟩]
  have hscan : scan "1 2 @;" = [] ++ (body ++ tail) := by with_unfolding_all rfl
  have hreported : reported [] "1 2 @;" body tail =
      [⟨.missing .semicolonAfterExpression, 1, ⟨2, 3⟩⟩, ⟨.unexpectedCharacter '@', 1, ⟨4, 5⟩⟩] := by
    with_unfolding_all rfl
  have horderly := h [] "1 2 @;" body tail
    ⟨⟨[], hscan, by simp [Closed]⟩, by simp [Bare, body], Or.inr rfl⟩
  rw [hreported] at horderly
  exact absurd horderly.one (by decide)

end Pixelwise
