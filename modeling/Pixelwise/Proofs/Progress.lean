/-
Progress — what the steps of the compiler keep.

Whatever the compiler does, it takes tokens from the front and gives none
back, it never withdraws a diagnostic, while it panics it goes on panicking
and reports nothing, and it never starts to panic without a report.  `Goes`
is these facts together; it holds of every step and so of every sequence of
steps.

Moving on is plain when a token of the language follows
(`advance_of_settled`); otherwise it ends in panic, and its first report
shows the character that it met (`advance_of_unexpected`).
-/
import Pixelwise.Compiler.Program
import Pixelwise.Proofs.Climbing

namespace Pixelwise.Compiler

open Syntax

/-- Characters that start no token are in the way of the tokens of the
language; this is what is left without those at the front. -/
def clear (ts : List Token) : List Token :=
  ts.dropWhile (·.kind.isUnexpected)

/-- No unexpected character stands at the front. -/
def Settled (ts : List Token) : Prop :=
  (kindAhead ts).isUnexpected = false

theorem clear_suffix (ts : List Token) : clear ts <:+ ts := List.dropWhile_suffix _

theorem settled_clear (ts : List Token) : Settled (clear ts) := by
  induction ts with
  | nil => rfl
  | cons t rest ih =>
      cases h : t.kind.isUnexpected with
      | true => simpa [clear, h] using ih
      | false => simp [clear, h, Settled]

theorem clear_of_settled {ts : List Token} (h : Settled ts) : clear ts = ts := by
  cases ts with
  | nil => rfl
  | cons t rest => simp [clear, show t.kind.isUnexpected = false from h]

/-- Tokens without an unexpected character at the front open with another
token, or are none. -/
theorem settled_cons_iff {t : Token} {ts : List Token} :
    Settled (t :: ts) ↔ ∀ c, t.kind ≠ .unexpected c := by
  cases h : t.kind <;> simp [Settled, h, Token.Kind.isUnexpected]

theorem settled_of_opening {ts : List Token} (h : (kindAhead ts).opening.isSome) :
    Settled ts := by
  cases hk : kindAhead ts <;> simp_all [Settled, Token.Kind.isUnexpected, Token.Kind.opening]

theorem settled_of_operator {ts : List Token} {op : Operator}
    (h : (kindAhead ts).operator = some op) : Settled ts := by
  cases hk : kindAhead ts <;> simp_all [Settled, Token.Kind.isUnexpected, Token.Kind.operator]

theorem clear_append {ts tail : List Token} (h : Settled tail) :
    clear (ts ++ tail) = clear ts ++ tail := by
  induction ts with
  | nil => exact clear_of_settled h
  | cons t ts ih =>
      cases hk : t.kind.isUnexpected with
      | true => simpa [clear, hk] using ih
      | false => simp [clear, hk]

theorem clear_mem {ts : List Token} {t : Token} (h : t ∈ clear ts) : t ∈ ts :=
  (clear_suffix ts).subset h

namespace State

theorem ahead_eq (s : State) : s.ahead = kindAhead s.pending := by
  rw [ahead]
  cases s.pending <;> rfl

theorem exists_of_ahead {s : State} (h : s.ahead ≠ .endOfInput) :
    ∃ t rest, s.pending = t :: rest ∧ s.current = t ∧ s.ahead = t.kind := by
  cases hp : s.pending with
  | nil => simp [ahead, hp] at h
  | cons t rest => exact ⟨t, rest, rfl, by simp [current, hp], by simp [ahead, hp]⟩

theorem exists_of_ahead_eq {s : State} {kind : Token.Kind} (h : s.ahead = kind)
    (hk : kind ≠ .endOfInput) : ∃ t rest, s.pending = t :: rest ∧ t.kind = kind := by
  obtain ⟨t, rest, hp, -, ha⟩ := exists_of_ahead (h ▸ hk)
  exact ⟨t, rest, hp, ha.symm.trans h⟩

/-! ## Moving on -/

theorem report_of_panicking {s : State} (h : s.panicking = true) (t : Token) (p : Problem) :
    s.report t p = s := by
  simp [report, h]

/-- A problem of form is reported, and panic begins. -/
theorem report_form {s : State} (h : s.panicking = false) {p : Problem}
    (hp : p.isSyntax = true) (t : Token) :
    s.report t p =
      { s with panicking := true, diagnostics := s.diagnostics.push ⟨p, t.line, t.span⟩ } := by
  simp [report, h, hp]

/-- Any other problem is reported, and that is all. -/
theorem report_other {s : State} (h : s.panicking = false) {p : Problem}
    (hp : p.isSyntax = false) (t : Token) :
    s.report t p = { s with diagnostics := s.diagnostics.push ⟨p, t.line, t.span⟩ } := by
  simp [report, h, hp]

theorem settle_of_settled {ts : List Token} (h : Settled ts) (s : State) :
    s.settle ts = { s with pending := ts } := by
  cases ts with
  | nil => rfl
  | cons t rest =>
      rw [settle]
      split
      · rename_i c hc
        exact absurd hc (settled_cons_iff.mp h c)
      · rfl

theorem settle_of_panicking {s : State} (h : s.panicking = true) (ts : List Token) :
    s.settle ts = { s with pending := clear ts } := by
  induction ts with
  | nil => rfl
  | cons t rest ih =>
      rw [settle]
      split
      · rename_i c hc
        rw [report_of_panicking h, ih]
        simp [clear, hc, Token.Kind.isUnexpected]
      · rename_i hne
        rw [clear_of_settled (settled_cons_iff.mpr fun c hc => hne c hc)]

/-- The first unexpected character is reported, the others are not. -/
theorem settle_of_unexpected {s : State} (h : s.panicking = false) {t : Token} {c : Char}
    (hc : t.kind = .unexpected c) (rest : List Token) :
    s.settle (t :: rest) =
      { s with
        pending := clear rest
        panicking := true
        diagnostics := s.diagnostics.push ⟨.unexpectedCharacter c, t.line, t.span⟩ } := by
  rw [settle]
  split
  · rename_i c' hc'
    cases hc.symm.trans hc'
    rw [report_form h rfl, settle_of_panicking rfl]
  · rename_i hne
    exact absurd hc (hne c)

variable {s : State} {t : Token} {rest : List Token}

theorem advance_of_settled (hp : s.pending = t :: rest) (h : Settled rest) :
    s.advance = { s with previous := t, pending := rest } := by
  rw [advance, hp, List.tail_cons, settle_of_settled h]
  simp [current, hp]

theorem advance_of_panicking (h : s.panicking = true) (hp : s.pending = t :: rest) :
    s.advance = { s with previous := t, pending := clear rest } := by
  rw [advance, hp, List.tail_cons, settle_of_panicking (by exact h)]
  simp [current, hp]

theorem advance_of_unexpected (h : s.panicking = false) {u : Token} {c : Char}
    (hc : u.kind = .unexpected c) (hp : s.pending = t :: u :: rest) :
    s.advance =
      { s with
        previous := t
        pending := clear rest
        panicking := true
        diagnostics := s.diagnostics.push ⟨.unexpectedCharacter c, u.line, u.span⟩ } := by
  rw [advance, hp, List.tail_cons, settle_of_unexpected (by exact h) hc]
  simp [current, hp]

theorem advance_of_nil (hp : s.pending = []) :
    s.advance = { s with previous := s.final, pending := [] } := by
  rw [advance, hp, List.tail_nil, settle]
  simp [current, hp]

/-- If the compiler is calm after it moved on, it was before, and met a token
of the language. -/
theorem advance_calm (h : s.advance.panicking = false) (hp : s.pending = t :: rest) :
    s.panicking = false ∧ Settled rest ∧ s.advance = { s with previous := t, pending := rest } := by
  have hs : s.panicking = false := by
    refine Bool.eq_false_iff.mpr fun hs => ?_
    simp [advance_of_panicking hs hp, hs] at h
  by_cases hr : Settled rest
  · exact ⟨hs, hr, advance_of_settled hp hr⟩
  · cases rest with
    | nil => exact absurd rfl hr
    | cons u rest =>
        obtain ⟨c, hc⟩ : ∃ c, u.kind = .unexpected c := by
          rw [settled_cons_iff] at hr
          simpa using hr
        simp [advance_of_unexpected hs hc hp] at h

end State

/-! ## What every step keeps -/

/-- What a check does: it leaves the state alone or reports a problem at the
token. -/
inductive State.Checks (t : Token) (s : State) : State → Prop
  | passed : Checks t s s
  | failed (p : Problem) : Checks t s (s.report t p)

namespace State.Checks

theorem target (s : State) (inputs : List String) (t : Token) :
    Checks t s (s.checkTarget inputs t) := by
  rw [checkTarget]
  repeat' split
  · exact .failed _
  · exact .failed _
  · exact .passed

theorem defined (s : State) (inputs : List String) (t : Token) :
    Checks t s (s.checkDefined inputs t) := by
  rw [checkDefined]
  split
  · exact .passed
  · exact .failed _

theorem arity (s : State) (t : Token) (f : Builtin) (found : Nat) :
    Checks t s (s.checkArity t f found) := by
  rw [checkArity]
  split
  · exact .passed
  · exact .failed _

theorem count (s : State) (n : Nat) : Checks s.previous s (s.checkCount n) := by
  rw [checkCount]
  split
  · exact .failed _
  · exact .passed

end State.Checks

/-- A relation that every step keeps to, and so every sequence of steps. -/
structure Stepwise (R : State → State → Prop) : Prop where
  refl (s : State) : R s s
  trans {s r q : State} : R s r → R r q → R s q
  report (s : State) (t : Token) (p : Problem) : R s (s.report t p)
  emit (s : State) (i : Instruction) : R s (s.emit i)
  assign (s : State) (name : String) : R s (s.assign name)
  advance (s : State) : R s s.advance

namespace Stepwise

variable {R : State → State → Prop}

theorem emitAll (hR : Stepwise R) (s : State) (code : List Instruction) :
    R s (s.emitAll code) := by
  rw [State.emitAll]
  induction code generalizing s with
  | nil => exact hR.refl s
  | cons i rest ih => exact hR.trans (hR.emit s i) (ih _)

theorem expect (hR : Stepwise R) (s : State) (what : Expectation) : R s (s.expect what) := by
  rw [State.expect]
  split
  · exact hR.advance s
  · exact hR.report s _ _

theorem number (hR : Stepwise R) (s : State) (t : Token) : R s (s.number t) := by
  rw [State.number]
  split
  · exact hR.emit s _
  · exact hR.trans (hR.report s _ _) (hR.emit _ _)

theorem check (hR : Stepwise R) {s r : State} {t : Token} (h : State.Checks t s r) : R s r := by
  cases h with
  | passed => exact hR.refl s
  | failed p => exact hR.report s t p

theorem bind (hR : Stepwise R) (s : State) (inputs : List String) (name : String) :
    R s (s.bind inputs name) := by
  rw [State.bind]
  split
  · exact hR.emitAll s _
  · exact hR.trans (hR.emitAll s _) (hR.assign _ _)

theorem refuseTarget (hR : Stepwise R) (s : State) (canAssign : Bool) :
    R s (s.refuseTarget canAssign) := by
  rw [State.refuseTarget]
  split
  · exact hR.trans (hR.advance s) (hR.report _ _ _)
  · exact hR.refl s

theorem skipStatement (hR : Stepwise R) (s : State) : R s s.skipStatement := by
  fun_induction State.skipStatement s with
  | case1 s => exact hR.refl s
  | case2 s => exact hR.refl s
  | case3 s _ _ ih => exact hR.trans (hR.advance s) ih

end Stepwise

/-- The state `r` comes after `s`: tokens were only taken and diagnostics
only added, panic went on in silence and did not begin in silence. -/
structure Goes (s r : State) : Prop where
  pending : r.pending <:+ s.pending
  final : r.final = s.final
  diagnostics : ∃ ds, r.diagnostics = s.diagnostics ++ ds
  silent : s.panicking = true → r.panicking = true ∧ r.diagnostics = s.diagnostics
  loud : r.diagnostics = s.diagnostics → r.panicking = s.panicking

namespace Goes

variable {s r q : State}

theorem refl (s : State) : Goes s s :=
  ⟨List.suffix_refl _, rfl, ⟨#[], by simp⟩, fun h => ⟨h, rfl⟩, fun _ => rfl⟩

/-- No diagnostic was added over two steps only if none was in either. -/
theorem quiet (h : Goes s r) (h' : Goes r q) (hq : q.diagnostics = s.diagnostics) :
    r.diagnostics = s.diagnostics ∧ q.diagnostics = r.diagnostics := by
  obtain ⟨ds, hds⟩ := h.diagnostics
  obtain ⟨es, hes⟩ := h'.diagnostics
  rw [hes, hds, Array.append_assoc] at hq
  have hsize := congrArg Array.size hq
  simp only [Array.size_append] at hsize
  have hd : ds = #[] := Array.eq_empty_of_size_eq_zero (by omega)
  have he : es = #[] := Array.eq_empty_of_size_eq_zero (by omega)
  subst hd he
  exact ⟨by simpa using hds, by simpa using hes⟩

theorem trans (h : Goes s r) (h' : Goes r q) : Goes s q := by
  refine ⟨h'.pending.trans h.pending, h'.final.trans h.final, ?_, fun hs => ?_, fun hq => ?_⟩
  · obtain ⟨ds, hds⟩ := h.diagnostics
    obtain ⟨es, hes⟩ := h'.diagnostics
    exact ⟨ds ++ es, by rw [hes, hds, Array.append_assoc]⟩
  · obtain ⟨hr, hd⟩ := h.silent hs
    obtain ⟨hq, hd'⟩ := h'.silent hr
    exact ⟨hq, hd'.trans hd⟩
  · obtain ⟨hd, hd'⟩ := h.quiet h' hq
    exact (h'.loud hd').trans (h.loud hd)

/-- Calm after is calm before. -/
theorem calm (h : Goes s r) (hr : r.panicking = false) : s.panicking = false := by
  cases hs : s.panicking with
  | false => rfl
  | true => exact absurd ((h.silent hs).1.symm.trans hr) (by simp)

theorem report (s : State) (t : Token) (p : Problem) : Goes s (s.report t p) := by
  rw [State.report]
  split
  · exact refl s
  · rename_i hs
    refine ⟨List.suffix_refl _, rfl, ⟨#[⟨p, t.line, t.span⟩], by simp⟩, fun h => absurd h hs, ?_⟩
    intro h
    simpa using congrArg Array.size h

/-- Steps that leave the tokens, the diagnostics and the mood alone. -/
theorem of_eq (hp : r.pending = s.pending) (hf : r.final = s.final)
    (hd : r.diagnostics = s.diagnostics) (hm : r.panicking = s.panicking) : Goes s r :=
  ⟨hp ▸ List.suffix_refl _, hf, ⟨#[], by simpa using hd⟩, fun h => ⟨hm.trans h, hd⟩, fun _ => hm⟩

theorem emit (s : State) (i : Instruction) : Goes s (s.emit i) :=
  of_eq rfl rfl rfl rfl

theorem assign (s : State) (name : String) : Goes s (s.assign name) :=
  of_eq rfl rfl rfl rfl

theorem settle (s : State) {ts : List Token} (h : ts <:+ s.pending) : Goes s (s.settle ts) := by
  induction ts generalizing s with
  | nil =>
      exact ⟨List.nil_suffix, rfl, ⟨#[], by simp [State.settle]⟩, fun h => ⟨h, rfl⟩, fun _ => rfl⟩
  | cons t rest ih =>
      rw [State.settle]
      split
      · refine (report s t _).trans (ih _ ?_)
        rw [State.pending_report]
        exact (List.suffix_cons t rest).trans h
      · exact ⟨h, rfl, ⟨#[], by simp⟩, fun h => ⟨h, rfl⟩, fun _ => rfl⟩

theorem advance (s : State) : Goes s s.advance := by
  have h := settle { s with previous := s.current } (List.tail_suffix s.pending)
  exact ⟨h.pending, h.final, h.diagnostics, h.silent, h.loud⟩

theorem stepwise : Stepwise Goes :=
  ⟨refl, trans, report, emit, assign, advance⟩

theorem emitAll (s : State) (code : List Instruction) : Goes s (s.emitAll code) :=
  stepwise.emitAll s code

theorem expect (s : State) (what : Expectation) : Goes s (s.expect what) :=
  stepwise.expect s what

theorem check {t : Token} (h : State.Checks t s r) : Goes s r :=
  stepwise.check h

theorem bind (s : State) (inputs : List String) (name : String) :
    Goes s (s.bind inputs name) :=
  stepwise.bind s inputs name

theorem refuseTarget (s : State) (canAssign : Bool) : Goes s (s.refuseTarget canAssign) :=
  stepwise.refuseTarget s canAssign

end Goes

end Pixelwise.Compiler
