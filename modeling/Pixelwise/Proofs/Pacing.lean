/-
Pacing — the compiler goes round only as it takes tokens, and takes them all.

A journal is watched by what was visited since a token of the source was taken
(`watch`): coming to a place again without one in between is an error, and at
the end of the source nothing is taken that counts.  Wherever the compiler is
about to go on while tokens are left, it has just taken one (`Poised`); only
the end can be met with places on the list, and there every loop is over.

`Records` says that a journal fits the states before and after it: the tokens
that it takes and pulls are those that stood before and no longer do.  It is
put together along the grammar, with one lemma for each of its functions.  The
journal is what a compilation logs (`finishLogged_eq`).

Main statement: `compile_paced`.
-/
import Pixelwise.Proofs.Lexing
import Pixelwise.Proofs.Logging
import Pixelwise.Proofs.Numerals
import Pixelwise.Proofs.Reading

namespace Pixelwise.Compiler

open Syntax

/-! ## Watching a journal -/

/-- The places visited since a token of the source was taken, after one more
event; none if the event comes to one of them again. -/
def watch (visited : List Site) : Event → Option (List Site)
  | .visit p => if p ∈ visited then none else some (p :: visited)
  | .take t => if t.kind = .endOfInput then some visited else some []
  | .pull _ => some visited

section

variable {p : Site} {v w : List Site} {journal : List Event}

/-- A place stays on the list until a token of the source is taken. -/
theorem mem_of_watch (hp : p ∈ v) (h : journal.foldlM watch v = some w) :
    (∃ t, .take t ∈ journal ∧ t.kind ≠ .endOfInput) ∨ p ∈ w := by
  induction journal generalizing v with
  | nil => exact Or.inr (Option.some.inj h ▸ hp)
  | cons e rest ih =>
      rw [List.foldlM_cons] at h
      obtain ⟨u, hu, hrest⟩ := Option.bind_eq_some_iff.mp h
      by_cases hkept : p ∈ u
      · rcases ih hkept hrest with ⟨t, ht, hkind⟩ | hw
        · exact Or.inl ⟨t, List.mem_cons_of_mem e ht, hkind⟩
        · exact Or.inr hw
      · cases e with
        | visit q =>
            rw [watch] at hu
            split at hu
            · cases hu
            · exact absurd (Option.some.inj hu ▸ List.mem_cons_of_mem q hp) hkept
        | take t =>
            rw [watch] at hu
            split at hu
            · exact absurd (Option.some.inj hu ▸ hp) hkept
            · exact Or.inl ⟨t, List.mem_cons_self, ‹_›⟩
        | pull t => exact absurd (Option.some.inj hu ▸ hp) hkept

/-- Between two visits of a place a token of the source is taken. -/
theorem exists_take_of_watch {before between behind : List Event}
    (h : (before ++ .visit p :: between ++ .visit p :: behind).foldlM watch v = some w) :
    ∃ t, .take t ∈ between ∧ t.kind ≠ .endOfInput := by
  rw [List.append_assoc, List.foldlM_append] at h
  obtain ⟨v₁, -, h⟩ := Option.bind_eq_some_iff.mp h
  rw [List.cons_append, List.foldlM_cons] at h
  obtain ⟨v₂, hfirst, h⟩ := Option.bind_eq_some_iff.mp h
  rw [List.foldlM_append] at h
  obtain ⟨v₃, hbetween, h⟩ := Option.bind_eq_some_iff.mp h
  rw [List.foldlM_cons] at h
  obtain ⟨v₄, hsecond, -⟩ := Option.bind_eq_some_iff.mp h
  have hp : p ∈ v₂ := by
    rw [watch] at hfirst
    split at hfirst
    · cases hfirst
    · exact Option.some.inj hfirst ▸ List.mem_cons_self
  refine (mem_of_watch hp hbetween).resolve_right fun hmem => ?_
  rw [watch, if_pos hmem] at hsecond
  cases hsecond

/-- A place is visited at most once more than tokens of the source are taken. -/
theorem count_le_of_watch (h : journal.foldlM watch v = some w) :
    journal.count (.visit p) + (if p ∈ v then 1 else 0) ≤
      (takes journal).countP (·.kind ≠ .endOfInput) + (if p ∈ w then 1 else 0) := by
  induction journal generalizing v with
  | nil =>
      cases Option.some.inj h
      exact Nat.le_refl _
  | cons e rest ih =>
      rw [List.foldlM_cons] at h
      obtain ⟨u, hu, hrest⟩ := Option.bind_eq_some_iff.mp h
      have hcount := ih hrest
      cases e with
      | visit q =>
          rw [watch] at hu
          split at hu
          · cases hu
          · rename_i hq
            cases Option.some.inj hu
            rw [takes_visit]
            by_cases hpq : q = p
            · subst hpq
              rw [if_pos List.mem_cons_self] at hcount
              rw [List.count_cons_self, if_neg hq]
              omega
            · rw [List.count_cons_of_ne (by simpa using hpq)]
              simpa [Ne.symm hpq] using hcount
      | take t =>
          rw [takes_take, List.count_cons_of_ne (by simp), List.countP_cons]
          rw [watch] at hu
          split at hu
          · cases Option.some.inj hu
            simpa [*] using hcount
          · cases Option.some.inj hu
            rw [if_neg List.not_mem_nil] at hcount
            rw [if_pos (decide_eq_true ‹_›)]
            split <;> omega
      | pull t =>
          cases Option.some.inj hu
          rwa [takes_pull, List.count_cons_of_ne (by simp)]

end

/-! ## Journals and states -/

namespace State

/-- What the scanner has still to give, up to the first token of the end: all
that is left without the token ahead. -/
def unread (s : State) : List Token :=
  (s.pending ++ [s.final]).tail

end State

/-- The journal tells how the compiler comes from `s` to `r`, where `v` were
visited before it since a token of the source was taken, and `w` after it. -/
structure Records (v : List Site) (s : State) (journal : List Event) (w : List Site)
    (r : State) : Prop where
  watched : journal.foldlM watch v = some w
  final : r.final = s.final
  /-- The last token of the source was taken and pulled some times more. -/
  moved : ∃ k, takes journal ++ r.pending = s.pending ++ List.replicate k s.final ∧
    pulls journal ++ r.unread = s.unread ++ List.replicate k s.final

namespace Records

variable {v w u : List Site} {s r q : State} {J K : List Event}

theorem refl (v : List Site) (s : State) : Records v s [] v s :=
  ⟨rfl, rfl, 0, by simp⟩

theorem trans (h : Records v s J w r) (h' : Records w r K u q) : Records v s (J ++ K) u q := by
  refine ⟨?_, h'.final.trans h.final, ?_⟩
  · rw [List.foldlM_append, h.watched]
    exact h'.watched
  · obtain ⟨k, htakes, hpulls⟩ := h.moved
    obtain ⟨l, htakes', hpulls'⟩ := h'.moved
    refine ⟨k + l, ?_, ?_⟩
    · rw [takes_append, List.append_assoc, htakes', ← List.append_assoc, htakes, List.append_assoc,
        h.final, List.replicate_append_replicate]
    · rw [pulls_append, List.append_assoc, hpulls', ← List.append_assoc, hpulls, List.append_assoc,
        h.final, List.replicate_append_replicate]

theorem visit {p : Site} (hp : p ∉ v) (h : Records (p :: v) s J w r) :
    Records v s (.visit p :: J) w r := by
  refine ⟨?_, h.final, h.moved⟩
  rw [List.foldlM_cons, watch, if_neg hp]
  exact h.watched

/-- Where a compilation stands does not depend on what it reports and emits. -/
theorem after {r' : State} (h : Records v s J w r) (hr : r'.pending = r.pending)
    (hf : r'.final = r.final) : Records v s J w r' := by
  refine ⟨h.watched, hf.trans h.final, ?_⟩
  rw [State.unread, hr, hf]
  exact h.moved

end Records

/-- All tokens that are left belong to the source. -/
def State.Inner (s : State) : Prop :=
  ∀ t ∈ s.pending, t.kind ≠ .endOfInput

theorem State.Inner.of_eq {s r : State} (h : s.Inner) (hr : r.pending = s.pending) : r.Inner :=
  fun t ht => h t (hr ▸ ht)

/-- While tokens are left, one of the source was taken last of all. -/
structure Poised (v : List Site) (s : State) : Prop where
  fresh : s.pending ≠ [] → v = []
  inner : s.Inner

/-- The journal goes well and ends where the compiler can go on. -/
def Paces (v : List Site) (s : State) (journal : List Event) (r : State) : Prop :=
  ∃ w, Records v s journal w r ∧ Poised w r

section

variable {v w : List Site} {s r q : State} {J K : List Event}

theorem Records.paces (h : Records v s J w r) (hr : Poised w r) : Paces v s J r :=
  ⟨w, h, hr⟩

theorem Records.then (h : Records v s J w r) (h' : Paces w r K q) : Paces v s (J ++ K) q := by
  obtain ⟨u, hrecords, hq⟩ := h'
  exact ⟨u, h.trans hrecords, hq⟩

namespace Paces

theorem refl (h : Poised v s) : Paces v s [] s :=
  ⟨v, .refl v s, h⟩

theorem visit {p : Site} (hp : p ∉ v) (h : Paces (p :: v) s J r) :
    Paces v s (.visit p :: J) r := by
  obtain ⟨w, hrecords, hr⟩ := h
  exact ⟨w, hrecords.visit hp, hr⟩

theorem trans (h : Paces v s J r) (h' : ∀ w, Poised w r → Paces w r K q) :
    Paces v s (J ++ K) q := by
  obtain ⟨w, hrecords, hr⟩ := h
  exact hrecords.then (h' w hr)

theorem after {r' : State} (h : Paces v s J r) (hr : r'.pending = r.pending)
    (hf : r'.final = r.final) : Paces v s J r' := by
  obtain ⟨w, hrecords, hrest⟩ := h
  exact ⟨w, hrecords.after hr hf, fun hne => hrest.fresh (hr ▸ hne), hrest.inner.of_eq hr⟩

end Paces

/-! ## Moving through the tokens -/

theorem State.pending_settle (s : State) (ts : List Token) : (s.settle ts).pending = clear ts := by
  induction ts generalizing s with
  | nil => rfl
  | cons t rest ih =>
      rw [settle]
      split
      · rename_i c hc
        rw [ih, clear, clear, List.dropWhile_cons_of_pos (by simp [hc, Token.Kind.isUnexpected])]
      · rename_i hne
        exact (clear_of_settled (settled_cons_iff.mpr hne)).symm

theorem State.final_settle (s : State) (ts : List Token) : (s.settle ts).final = s.final := by
  induction ts generalizing s with
  | nil => rfl
  | cons t rest ih =>
      rw [settle]
      split
      · rw [ih, (Goes.report ..).final]
      · rfl

/-- Unexpected characters are taken as they are pulled. -/
theorem settleJournal_spec (final : Token) (ts : List Token) :
    (settleJournal final ts).foldlM watch [] = some [] ∧
      takes (settleJournal final ts) ++ clear ts = ts ∧
      pulls (settleJournal final ts) ++ (clear ts ++ [final]).tail = ts ++ [final] := by
  induction ts with
  | nil => exact ⟨rfl, rfl, rfl⟩
  | cons t rest ih =>
      obtain ⟨hwatch, htakes, hpulls⟩ := ih
      rw [settleJournal]
      split
      · rename_i c hc
        have hclear : clear (t :: rest) = clear rest :=
          List.dropWhile_cons_of_pos (by simp [hc, Token.Kind.isUnexpected])
        rw [hclear]
        refine ⟨?_, congrArg (t :: ·) htakes, congrArg (t :: ·) hpulls⟩
        simpa [watch, hc] using hwatch
      · rename_i hne
        rw [clear_of_settled (settled_cons_iff.mpr hne)]
        exact ⟨rfl, rfl, rfl⟩

theorem State.Inner.advance (h : s.Inner) : s.advance.Inner :=
  fun t ht => h t ((Goes.advance s).pending.subset ht)

/-- While a token is left, moving on takes it. -/
theorem advance_records (hp : s.pending ≠ []) (hs : s.Inner) :
    Records v s s.advanceJournal [] s.advance := by
  obtain ⟨t, rest, hcons⟩ := List.exists_cons_of_ne_nil hp
  obtain ⟨hwatch, htakes, hpulls⟩ := settleJournal_spec s.final rest
  have hadvance : s.advance.pending = clear rest := by
    rw [State.advance, hcons]
    exact State.pending_settle _ rest
  have hjournal : s.advanceJournal = .take t :: settleJournal s.final rest := by
    rw [State.advanceJournal, State.current, hcons]
    rfl
  have hkind : t.kind ≠ .endOfInput := hs t (hcons ▸ List.mem_cons_self)
  have hfinal := (Goes.advance s).final
  rw [hjournal]
  refine ⟨?_, hfinal, 0, ?_, ?_⟩
  · rw [List.foldlM_cons, watch, if_neg hkind]
    exact hwatch
  · simp [hadvance, hcons, htakes]
  · simpa [State.unread, hadvance, hcons, hfinal] using hpulls

theorem advance_paces (hs : s.Inner) : Paces v s s.advanceJournal s.advance := by
  by_cases hp : s.pending = []
  · have hadvance := State.advance_of_nil hp
    have hjournal : s.advanceJournal = [.take s.final, .pull s.final] := by
      rw [State.advanceJournal, State.current, hp]
      rfl
    refine ⟨if s.final.kind = .endOfInput then v else [], ⟨?_, ?_, 1, ?_, ?_⟩, ?_⟩
    · rw [hjournal]
      split <;> simp [watch, *]
    · rw [hadvance]
    · simp [hjournal, hadvance, hp]
    · simp [hjournal, hadvance, hp, State.unread]
    · exact ⟨fun hne => absurd (by rw [hadvance]) hne, hs.advance⟩
  · exact (advance_records hp hs).paces ⟨fun _ => rfl, hs.advance⟩

theorem expect_paces (h : Poised v s) (what : Expectation) :
    Paces v s (s.expectJournal what) (s.expect what) := by
  rw [State.expectJournal, State.expect]
  split
  · exact advance_paces h.inner
  · exact (Paces.refl h).after (State.pending_report ..) (Goes.report ..).final

theorem refuse_paces (h : Poised v s) (canAssign : Bool) :
    Paces v s (s.refuseJournal canAssign) (s.refuseTarget canAssign) := by
  rw [State.refuseJournal, State.refuseTarget]
  split
  · exact (advance_paces h.inner).after (State.pending_report ..) (Goes.report ..).final
  · exact .refl h

/-! ## The grammar -/

variable (inputs : List String)

theorem State.pending_ne_nil (h : s.ahead ≠ .endOfInput) : s.pending ≠ [] :=
  List.length_pos_iff.mp (pending_pos h)

/-- The arguments of a call are read from right behind the opening parenthesis,
whatever was reported and emitted. -/
theorem State.called_same (s : State) (inputs : List String) (token : Token) :
    (s.called inputs token).pending = s.advance.pending ∧
      (s.called inputs token).final = s.advance.final := by
  have hemit : ∀ u : State, u.pending = s.pending → u.final = s.final →
      u.advance.pending = s.advance.pending ∧ u.advance.final = s.advance.final :=
    fun u hp hf => ⟨by simp only [State.advance, State.pending_settle, hp],
      (Goes.advance u).final.trans (hf.trans (Goes.advance s).final.symm)⟩
  rw [State.called]
  split
  · exact hemit _ rfl rfl
  · obtain ⟨hp, hf⟩ := hemit ((s.checkDefined inputs token).emit (.get token.lexeme))
      (State.pending_checkDefined ..) (Goes.check (.defined ..)).final
    exact ⟨(State.pending_report ..).trans hp, (Goes.report ..).final.trans hf⟩

/-- A name that is no target takes the arguments of its call with it, if it is
called. -/
theorem operand_variable_same {t : Token} {b : Bool} (he : ¬(b = true ∧ s.ahead = .equal)) :
    let r := if s.ahead = .leftParen then (arguments inputs (s.called inputs t)).1 else s
    (operand inputs .variable t b s).pending = r.pending ∧
      (operand inputs .variable t b s).final = r.final := by
  rw [operand_variable, if_neg he, State.called]
  cases Builtin.ofName? t.lexeme with
  | some f =>
      dsimp only
      split
      · simp only [Option.isSome_some, reduceIte, State.pending_emit, State.pending_checkArity,
          true_and]
        exact (Goes.check (.arity ..)).final
      · exact ⟨State.pending_report .., (Goes.report ..).final⟩
  | none =>
      dsimp only
      split
      · exact ⟨rfl, rfl⟩
      · exact ⟨State.pending_checkDefined .., (Goes.check (.defined ..)).final⟩

mutual

/-- An expression can be asked for wherever none was since a token was taken.
It takes one at once, or stands at the end. -/
theorem expression_paces (level : Precedence) (s : State) (v : List Site)
    (hv : .expression ∉ v) (hs : s.Inner) :
    Paces v s (expressionJournal inputs level s) (expression inputs level s) := by
  rw [expressionJournal, List.cons_append, expression_eq]
  refine .visit hv ?_
  cases h : s.ahead.opening with
  | none =>
      -- This may be the end, and then the expression stays on the list.
      dsimp only
      rw [List.append_nil]
      exact (advance_paces hs).after (State.pending_report ..) (Goes.report ..).final
  | some o =>
      have hlt := s.advance_pending_lt (ahead_ne_of_opening h)
      have hle := operand_pending_le inputs o s.current (decide (level ≤ .assignment)) s.advance
      have htaken := advance_records (v := .expression :: v)
        (State.pending_ne_nil (ahead_ne_of_opening h)) hs
      exact htaken.then (((operand_paces o s.current _ s.advance hs.advance).trans
        fun w hw => operators_paces level _ w hw).trans fun w hw => refuse_paces hw _)
termination_by 4 * s.pending.length + 0
decreasing_by all_goals omega

/-- The token that opened the operand was taken last. -/
theorem operand_paces (o : Opening) (t : Token) (b : Bool) (s : State) (hs : s.Inner) :
    Paces [] s (operandJournal inputs o t b s) (operand inputs o t b s) := by
  rw [operandJournal.eq_def]
  cases o with
  | grouping =>
      rw [operand_grouping]
      exact (expression_paces _ s [] List.not_mem_nil hs).trans fun w hw => expect_paces hw _
  | unary op =>
      rw [operand_unary]
      exact (expression_paces _ s [] List.not_mem_nil hs).after rfl rfl
  | number =>
      rw [operand_number]
      exact (Paces.refl ⟨fun _ => rfl, hs⟩).after (State.pending_number ..)
        (Goes.stepwise.number s t).final
  | «variable» =>
      dsimp only
      by_cases he : b = true ∧ s.ahead = .equal
      · have hne : s.ahead ≠ .endOfInput := by simp [he.2]
        have hlt := s.advance_pending_lt hne
        have hcheck := State.pending_checkTarget s.advance inputs t
        have hlt' : (s.advance.checkTarget inputs t).pending.length < s.pending.length := by
          rwa [hcheck]
        rw [operand_variable, dif_pos he, if_pos he]
        have htaken : Records [] s s.advanceJournal [] (s.advance.checkTarget inputs t) :=
          (advance_records (State.pending_ne_nil hne) hs).after hcheck
            (Goes.check (.target ..)).final
        have hvalue := expression_paces .assignment (s.advance.checkTarget inputs t) []
          List.not_mem_nil (hs.advance.of_eq hcheck)
        exact (htaken.then hvalue).after (State.pending_bind ..) (Goes.bind ..).final
      · obtain ⟨hsame, hfinal⟩ := operand_variable_same inputs (t := t) he
        rw [dif_neg he]
        by_cases hp : s.ahead = .leftParen
        · have hne : s.ahead ≠ .endOfInput := by simp [hp]
          have hlt := s.called_pending_lt inputs t hne
          obtain ⟨hcalled, hfinal'⟩ := s.called_same inputs t
          have htaken : Records [] s s.advanceJournal [] (s.called inputs t) :=
            (advance_records (State.pending_ne_nil hne) hs).after hcalled hfinal'
          rw [dif_pos hp]
          rw [if_pos hp] at hsame hfinal
          exact (htaken.then (arguments_paces _ (hs.advance.of_eq hcalled))).after hsame hfinal
        · rw [dif_neg hp]
          rw [if_neg hp] at hsame hfinal
          exact (Paces.refl ⟨fun _ => rfl, hs⟩).after hsame hfinal
termination_by 4 * s.pending.length + 1
decreasing_by all_goals omega

theorem operators_paces (level : Precedence) (s : State) (v : List Site) (hv : Poised v s) :
    Paces v s (operatorsJournal inputs level s) (operators inputs level s) := by
  rw [operatorsJournal, operators_eq]
  cases h : s.ahead.operator with
  | none => exact .refl hv
  | some op =>
      have hne := ahead_ne_of_operator h
      have hlt := s.advance_pending_lt hne
      have hle := expression_pending_le inputs op.precedence.next s.advance
      have hright : ((expression inputs op.precedence.next s.advance).emitAll
          op.code).pending.length < s.pending.length := by
        rw [State.pending_emitAll]
        omega
      cases hv.fresh (State.pending_ne_nil hne)
      dsimp only
      split
      · rw [List.cons_append, List.cons_append, List.append_assoc]
        have htaken := advance_records (v := [.operator]) (State.pending_ne_nil hne) hv.inner
        have hvalue := expression_paces op.precedence.next s.advance [] List.not_mem_nil
          hv.inner.advance
        exact .visit List.not_mem_nil (htaken.then
          ((hvalue.after (State.pending_emitAll ..) (Goes.emitAll ..).final).trans
            fun w hw => operators_paces level _ w hw))
      · exact .refl hv
termination_by 4 * s.pending.length + 1
decreasing_by all_goals omega

theorem arguments_paces (s : State) (hs : s.Inner) :
    Paces [] s (argumentsJournal inputs s) (arguments inputs s).1 := by
  rw [argumentsJournal, arguments_eq]
  split
  · exact expect_paces ⟨fun _ => rfl, hs⟩ _
  · exact (argument_paces 0 s hs).trans fun w hw => expect_paces hw _
termination_by 4 * s.pending.length + 2
decreasing_by all_goals omega

theorem argument_paces (count : Nat) (s : State) (hs : s.Inner) :
    Paces [] s (argumentJournal inputs count s) (argument inputs count s).1 := by
  have hcount := State.pending_checkCount (expression inputs .assignment s) count
  have hvalue := (expression_paces .assignment s [.argument] (by simp) hs).after hcount
    (Goes.check (.count ..)).final
  rw [argumentJournal, List.cons_append, argument_eq]
  refine .visit List.not_mem_nil (hvalue.trans fun w hw => ?_)
  by_cases h : ((expression inputs .assignment s).checkCount count).ahead = .comma
  · have hne : ((expression inputs .assignment s).checkCount count).ahead ≠ .endOfInput := by
      simp [h]
    have hlt := ((expression inputs .assignment s).checkCount count).advance_pending_lt hne
    have hle := expression_pending_le inputs .assignment s
    have hlength := congrArg List.length hcount
    rw [dif_pos h, if_pos h]
    exact (advance_records (State.pending_ne_nil hne) hw.inner).then
      (argument_paces (count + 1) _ hw.inner.advance)
  · rw [dif_neg h, if_neg h]
    exact .refl hw
termination_by 4 * s.pending.length + 1
decreasing_by all_goals omega

end

/-! ## Programs -/

/-- Recovery may have looked whether it is done after the last token that was
taken; no other loop is left where a statement can begin. -/
structure Turns (v : List Site) (s : State) : Prop where
  fresh : s.pending ≠ [] → v ⊆ [.skipping]
  inner : s.Inner

theorem Poised.turns (h : Poised v s) : Turns v s :=
  ⟨fun hp => by simp [h.fresh hp], h.inner⟩

theorem skip_records (s : State) (v : List Site) (h : Poised v s) :
    ∃ w, Records v s s.skipJournal w s.skipStatement ∧ Turns w s.skipStatement := by
  fun_induction State.skipStatement s generalizing v with
  | case1 s hp =>
      rw [State.skipJournal, dif_pos hp]
      exact ⟨v, .refl v s, h.turns⟩
  | case2 s hp hsemicolon =>
      rw [State.skipJournal, dif_neg hp, if_pos hsemicolon]
      cases h.fresh hp
      exact ⟨[.skipping], (Records.refl _ s).visit List.not_mem_nil, fun _ => List.Subset.refl _,
        h.inner⟩
  | case3 s hp hsemicolon ih =>
      rw [State.skipJournal, dif_neg hp, if_neg hsemicolon]
      cases h.fresh hp
      obtain ⟨w, hrest, hturns⟩ := ih [] ⟨fun _ => rfl, h.inner.advance⟩
      exact ⟨w, ((advance_records hp h.inner).trans hrest).visit List.not_mem_nil, hturns⟩

theorem recover_records (h : Poised v s) :
    ∃ w, Records v s s.recoverJournal w s.recoverIfPanicking ∧ Turns w s.recoverIfPanicking := by
  rw [State.recoverJournal, State.recoverIfPanicking]
  split
  · obtain ⟨w, hskip, hturns⟩ := skip_records { s with panicking := false } v ⟨h.fresh, h.inner⟩
    have hcalmed : Records v s [] v { s with panicking := false } :=
      (Records.refl v s).after rfl rfl
    exact ⟨w, hcalmed.trans hskip, hturns⟩
  · exact ⟨v, .refl v s, h.turns⟩

theorem statement_paces (hv : .expression ∉ v) (hs : s.Inner) :
    Paces v s (statementJournal inputs s) (statement inputs s) :=
  ((expression_paces inputs .assignment s v hv hs).trans
    fun _ hw => expect_paces hw _).after rfl rfl

theorem statements_records (s : State) (v : List Site) (h : Turns v s) :
    ∃ w, Records v s (statementsJournal inputs s) w (statements inputs s) := by
  fun_induction statements inputs s generalizing v with
  | case1 s hp =>
      rw [statementsJournal, dif_pos hp]
      obtain ⟨w, hend, -⟩ := advance_paces (v := v) h.inner
      refine ⟨w, hend.after ?_ (Goes.advance s).final.symm⟩
      rw [State.advance_of_nil hp, hp]
  | case2 s hp ih =>
      rw [statementsJournal, dif_neg hp, List.cons_append, List.cons_append, List.append_assoc]
      have hnone : ∀ p ≠ Site.skipping, p ∉ v := fun p hp' hmem =>
        hp' (List.mem_singleton.mp (h.fresh hp hmem))
      obtain ⟨w₁, hstatement, hpoised⟩ := statement_paces inputs (v := .statement :: v)
        (List.not_mem_cons_of_ne_of_not_mem (by simp) (hnone _ (by simp))) h.inner
      obtain ⟨w₂, hrecover, hturns⟩ := recover_records hpoised
      obtain ⟨w, hrest⟩ := ih w₂ hturns
      exact ⟨w, (hstatement.trans (hrecover.trans hrest)).visit (hnone _ (by simp))⟩

end

/-! ## Whole compilations -/

open Token in
/-- The tokens of a source are none of the end. -/
theorem kind_ne_of_mem_scan {source : String} {t : Token} (h : t ∈ scan source) :
    t.kind ≠ .endOfInput := by
  obtain ⟨c, cs, hkind, -⟩ := mem_scanFrom h
  rw [hkind]
  intro hend
  rcases munch_mem c cs with ⟨hunexpected, -⟩ | hmem
  · cases hunexpected.symm.trans hend
  · rw [hend] at hmem
    exact Language.notMem_zero _ hmem

/-- All statements are read up to the end. -/
theorem pending_statements (s : State) : (statements inputs s).pending = [] := by
  fun_induction statements inputs s with
  | case1 s hp => exact hp
  | case2 s hp ih => exact ih

section

open Token

section

variable (assigned : List String) (source : String)

theorem final_start :
    (State.start assigned (scan source) (endOf source)).final = endOf source :=
  State.final_settle _ _

theorem pending_start :
    (State.start assigned (scan source) (endOf source)).pending = clear (scan source) :=
  State.pending_settle _ _

theorem turns_start : Turns [] (State.start assigned (scan source) (endOf source)) :=
  ⟨by simp, fun t ht => kind_ne_of_mem_scan (clear_mem (pending_start assigned source ▸ ht))⟩

/-- The compiler ends before the end of the source. -/
theorem current_finish (inputs : List String) :
    (finish assigned inputs source).current = endOf source := by
  obtain ⟨w, hrecords⟩ := statements_records inputs _ [] (turns_start assigned source)
  rw [State.current, finish, pending_statements, List.headD_nil, hrecords.final, final_start]

/-- A journal is watched without an error from its beginning, and what is
pulled are the tokens of the source and then the end: all that is taken, and
one more that stays ahead. -/
theorem journal_spec (inputs : List String) :
    (∃ w, (journal assigned inputs source).foldlM watch [] = some w) ∧
      ∃ k, takes (journal assigned inputs source) =
          scan source ++ List.replicate k (endOf source) ∧
        pulls (journal assigned inputs source) =
          scan source ++ List.replicate (k + 1) (endOf source) := by
  obtain ⟨hwatch, htakes, hpulls⟩ := settleJournal_spec (endOf source) (scan source)
  obtain ⟨w, hrecords⟩ := statements_records inputs _ [] (turns_start assigned source)
  obtain ⟨k, htaken, hpulled⟩ := hrecords.moved
  rw [pending_statements, List.append_nil, pending_start, final_start] at htaken
  rw [State.unread, State.unread, pending_statements, pending_start, final_start, List.nil_append,
    List.tail_cons, List.append_nil] at hpulled
  refine ⟨⟨w, ?_⟩, k, ?_, ?_⟩
  · rw [journal, List.foldlM_append, hwatch]
    exact hrecords.watched
  · rw [journal, takes_append, htaken, ← List.append_assoc, htakes]
  · rw [journal, pulls_append, hpulled, ← List.append_assoc, hpulls, List.append_assoc,
      List.replicate_succ]
    rfl

/-- A scanner that is asked again and again gives the tokens of the source and
then the end. -/
theorem getElem?_scan_append {i k : Nat} (hi : i < (scan source).length + k) :
    (scan source ++ List.replicate k (endOf source))[i]? =
      some ((Scanner.ofSource source).token i) := by
  rw [Scanner.token_eq]
  change _ = some ((scan source)[i]?.getD (endOf source))
  rcases Nat.lt_or_ge i (scan source).length with hlt | hge
  · rw [List.getElem?_append_left hlt, List.getElem?_eq_getElem hlt]
    rfl
  · rw [List.getElem?_append_right hge, List.getElem?_eq_none hge,
      List.getElem?_replicate_of_lt (by omega)]
    rfl

end

/-- Between two visits of a place a token of the source is taken. -/
def Paced (journal : List Event) : Prop :=
  ∀ (p : Site) (before between behind : List Event),
    journal = before ++ .visit p :: between ++ .visit p :: behind →
      ∃ t, .take t ∈ between ∧ t.kind ≠ .endOfInput

/-- Whatever the source and the inputs are, the compiler with a log finishes as the
compiler does.  In its log each recursive call and each round of a loop is
separated from the next by a token of the source that is taken, so that no place
is visited more often than there are tokens, and once.  In the end the compiler
stands before the end of the source, and what the scanner gave, asked again and
again, are all tokens of the source, each once, and then the end. -/
theorem compile_paced (assigned inputs : List String) (source : String) :
    let run := finishLogged assigned inputs source
    run.state = finish assigned inputs source ∧
      Paced run.log ∧
      (∀ p, run.log.count (.visit p) ≤ (scan source).length + 1) ∧
      run.state.current = endOf source ∧
      (∃ k, takes run.log = scan source ++ List.replicate k (endOf source) ∧
        pulls run.log = scan source ++ List.replicate (k + 1) (endOf source)) ∧
      ∀ i < (pulls run.log).length,
        (pulls run.log)[i]? = some ((Scanner.ofSource source).token i) := by
  intro run
  have hrun : run = ⟨finish assigned inputs source, journal assigned inputs source⟩ :=
    finishLogged_eq inputs assigned source
  obtain ⟨⟨w, hwatched⟩, k, htakes, hpulls⟩ := journal_spec assigned source inputs
  rw [hrun]
  refine ⟨rfl, fun p before between behind h => ?_, fun p => ?_,
    current_finish assigned source inputs, ⟨k, htakes, hpulls⟩, fun i hi => ?_⟩
  · have hjournal : journal assigned inputs source =
        before ++ .visit p :: between ++ .visit p :: behind := h
    exact exists_take_of_watch (hjournal ▸ hwatched)
  · have hcount := count_le_of_watch (p := p) hwatched
    have htaken : (takes (journal assigned inputs source)).countP (·.kind ≠ .endOfInput) =
        (scan source).length := by
      rw [htakes, List.countP_append, List.countP_eq_length.mpr fun t ht =>
        decide_eq_true (kind_ne_of_mem_scan ht), List.countP_replicate]
      rfl
    rw [htaken, if_neg List.not_mem_nil] at hcount
    refine Nat.le_trans hcount (Nat.add_le_add_left ?_ _)
    split <;> decide
  · dsimp only at hi ⊢
    rw [hpulls] at hi ⊢
    exact getElem?_scan_append source (by simpa using hi)

end

end Pixelwise.Compiler
