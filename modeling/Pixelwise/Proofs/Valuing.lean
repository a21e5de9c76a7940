/-
Valuing — every number that is written has a value, and its constant is that
value.

The words of number tokens are decimals (`lexemes_number_le`), and every
decimal is read (`isSome_read?_of_mem_plain`).  `Pays` says that between two
states the compiler emitted the constants of the literals that the journal
tells and no others, and that it rejected none that has a value; it is put
together along the grammar as the journal is.  Of a source that is accepted
the literals are all number tokens (`Derives.constants_code`).

Main statement: `literals_valued`.
-/
import Mathlib
import Pixelwise.Compiler.Literals
import Pixelwise.Decimal.Grammar
import Pixelwise.Proofs.Language
import Pixelwise.Proofs.Pacing

open Computability

namespace Pixelwise

/-! ## Decimals -/

namespace Decimal

open Token

/-- The words of number tokens are decimals. -/
theorem lexemes_number_le : Kind.number.lexemes ≤ plain := by
  have hdigits : digits ≤ digit∗ := mul_kstar_le_kstar
  have hnone : (1 : Language Char) ≤ digit∗ := one_le_kstar
  calc
    digits * (1 + {['.']} * digits) + {['.']} * digits
        = digits + digits * {['.']} * digits + 1 * {['.']} * digits := by
      rw [mul_add, mul_one, one_mul, mul_assoc]
    _ ≤ plain :=
      add_le_add (add_le_add le_rfl (mul_le_mul_right hdigits _))
        (mul_le_mul_left (mul_le_mul_left hnone _) _)

theorem mem_digits {w : List Char} : w ∈ digits ↔ w ≠ [] ∧ ∀ c ∈ w, c.isDigit = true := by
  cases w with
  | nil => exact iff_of_false nil_notMem_digits (fun h => h.1 rfl)
  | cons c cs => simp [cons_mem_digits]

/-- Digits before and behind a point, if there is one. -/
theorem exists_of_mem_plain {w : List Char} (h : w ∈ plain) :
    ∃ ds es : List Char, (∀ d ∈ ds, d.isDigit = true) ∧ (∀ e ∈ es, e.isDigit = true) ∧
      ds ++ es ≠ [] ∧ (w = ds ∧ es = [] ∨ w = ds ++ '.' :: es) := by
  rcases h with (h | ⟨_, ⟨ds, hds, _, rfl, rfl⟩, es, hes, rfl⟩) |
    ⟨_, ⟨ds, hds, _, rfl, rfl⟩, es, hes, rfl⟩
  · obtain ⟨hne, hw⟩ := mem_digits.mp h
    exact ⟨w, [], hw, by simp, by simpa using hne, Or.inl ⟨rfl, rfl⟩⟩
  · obtain ⟨hne, hds⟩ := mem_digits.mp hds
    exact ⟨ds, es, hds, mem_one_kstar.mp hes, by simp [hne], Or.inr (by simp)⟩
  · obtain ⟨hne, hes⟩ := mem_digits.mp hes
    exact ⟨ds, es, mem_one_kstar.mp hds, hes, by simp [hne], Or.inr (by simp)⟩

/-- A decimal opens with a digit or a point. -/
theorem opens_of_mem_plain {c : Char} {cs : List Char} (h : c :: cs ∈ plain) :
    c.isDigit = true ∨ c = '.' := by
  obtain ⟨ds, es, hds, hes, hne, ⟨hw, rfl⟩ | hw⟩ := exists_of_mem_plain h
  · exact Or.inl (hds c (hw ▸ List.mem_cons_self))
  · cases ds with
    | nil => exact Or.inr (List.cons.inj hw).1
    | cons d ds => exact Or.inl ((List.cons.inj hw).1 ▸ hds d List.mem_cons_self)

theorem isSome_readPlain?_of_mem_plain {w : List Char} (h : w ∈ plain) :
    (readPlain? w).isSome := by
  obtain ⟨ds, es, hds, hes, hne, ⟨rfl, rfl⟩ | rfl⟩ := exists_of_mem_plain h
  · obtain ⟨h₁, h₂⟩ := takeWhile_digits [] hds rfl
    rw [List.append_nil] at h₁ h₂ hne
    simp [readPlain?, h₁, h₂, splitPoint, hne, readExponent?]
  · obtain ⟨h₁, h₂⟩ := takeWhile_digits ('.' :: es) hds rfl
    obtain ⟨h₃, h₄⟩ := takeWhile_digits [] hes rfl
    rw [List.append_nil] at h₃ h₄
    simp only [readPlain?, h₁, h₂, splitPoint, h₃, h₄, if_neg hne]
    rfl

/-- Every decimal is read as a number. -/
theorem isSome_read?_of_mem_plain {w : List Char} (h : w ∈ plain) :
    (read? (String.ofList w)).isSome := by
  rw [read?, String.toList_ofList]
  split
  · exact absurd (opens_of_mem_plain h) (by decide)
  · exact absurd (opens_of_mem_plain h) (by decide)
  · rw [readUnsigned?]
    split
    · rfl
    · split
      · rfl
      · exact isSome_readPlain?_of_mem_plain h

end Decimal

open Token in
/-- The lexeme of a token of the language is a word of its kind. -/
theorem Token.lexeme_mem_of_mem_scan {source : String} {t : Token} (h : t ∈ scan source)
    (hk : t.kind.isUnexpected = false) : t.lexeme.toList ∈ t.kind.lexemes := by
  obtain ⟨c, cs, hkind, hlexeme⟩ := mem_scanFrom h
  rw [hkind] at hk ⊢
  rw [hlexeme, String.toList_ofList]
  refine (munch_mem c cs).resolve_left fun hstray => ?_
  rw [hstray.1] at hk
  cases hk

namespace Compiler

open Syntax

/-- Only numbers without a value have the code P004. -/
theorem exists_of_code_eq {p : Problem} (h : p.code = "P004") :
    ∃ lexeme, p = .invalidNumber lexeme := by
  cases p with
  | invalidNumber lexeme => exact ⟨lexeme, rfl⟩
  | _ => simp [Problem.code] at h

/-! ## Literals that are paid for -/

/-- The values of number tokens, each with its line. -/
def values (ts : List Token) : List (Float × Nat) :=
  ts.map fun t => (literal t, t.line)

theorem values_append (ts us : List Token) : values (ts ++ us) = values ts ++ values us :=
  List.map_append

/-- What the compiler emitted from `s` to `r` are the constants of the
literals in the journal, and no literal was rejected that has a value.  The
token at the end of the source is no literal. -/
structure Pays (s : State) (journal : List Event) (r : State) : Prop where
  final : r.final = s.final
  /-- What follows the journal begins anew. -/
  closed : ∀ K, openers (journal ++ K) = openers journal ++ openers K
  paid : s.final.kind ≠ .number →
    constants r.emitted.toList = constants s.emitted.toList ++ values (literals journal)
  accepted : ∀ d ∈ r.diagnostics, d.code = "P004" →
    d ∈ s.diagnostics ∨ ∃ t ∈ literals journal, Decimal.read? t.lexeme = none

section

variable {s r q : State} {J K : List Event}

namespace Pays

theorem literals_append (h : Pays s J r) (K : List Event) :
    literals (J ++ K) = literals J ++ literals K := by
  rw [literals, h.closed, numbers_append]
  rfl

theorem trans (h : Pays s J r) (h' : Pays r K q) : Pays s (J ++ K) q where
  final := h'.final.trans h.final
  closed L := by rw [List.append_assoc, h.closed, h'.closed, h.closed, List.append_assoc]
  paid hf := by
    rw [h'.paid (h.final ▸ hf), h.paid hf, h.literals_append, values_append, List.append_assoc]
  accepted d hd hcode := by
    rw [h.literals_append]
    rcases h'.accepted d hd hcode with hr | ⟨t, ht, hnone⟩
    · rcases h.accepted d hr hcode with hs | ⟨t, ht, hnone⟩
      · exact Or.inl hs
      · exact Or.inr ⟨t, List.mem_append_left _ ht, hnone⟩
    · exact Or.inr ⟨t, List.mem_append_right _ ht, hnone⟩

theorem after (h : Pays s J r) (h' : Pays r [] q) : Pays s J q := by
  have hboth := h.trans h'
  rwa [List.append_nil] at hboth

theorem before (h : Pays s [] r) (h' : Pays r J q) : Pays s J q :=
  h.trans h'

theorem visit {p : Site} (hp : p ≠ .expression) (h : Pays s J r) : Pays s (.visit p :: J) r where
  final := h.final
  closed K := by
    rw [List.cons_append, openers_visit hp, openers_visit hp, h.closed]
  paid hf := by
    rw [literals, openers_visit hp]
    exact h.paid hf
  accepted d hd hcode := by
    rw [literals, openers_visit hp]
    exact h.accepted d hd hcode

/-- A journal of steps between which no literal is taken. -/
theorem of_none (h : Pays s [] r) (hclosed : ∀ K, openers (J ++ K) = openers J ++ openers K)
    (hnone : s.final.kind ≠ .number → literals J = []) : Pays s J r where
  final := h.final
  closed := hclosed
  paid hf := by
    rw [hnone hf]
    exact h.paid hf
  accepted d hd hcode := Or.inl (by simpa [literals] using h.accepted d hd hcode)

theorem of_eq (hf : r.final = s.final)
    (hc : constants r.emitted.toList = constants s.emitted.toList)
    (hd : ∀ d ∈ r.diagnostics, d.code = "P004" → d ∈ s.diagnostics) : Pays s [] r where
  final := hf
  closed _ := rfl
  paid _ := by rw [hc]; exact (List.append_nil _).symm
  accepted d hmem hcode := Or.inl (hd d hmem hcode)

theorem same (hf : r.final = s.final) (he : r.emitted = s.emitted)
    (hd : r.diagnostics = s.diagnostics) : Pays s [] r :=
  .of_eq hf (by rw [he]) fun d hmem _ => hd ▸ hmem

theorem refl (s : State) : Pays s [] s :=
  .same rfl rfl rfl

/-! ## Steps without literals -/

theorem report {p : Problem} (hp : ∀ lexeme, p ≠ .invalidNumber lexeme) (s : State) (t : Token) :
    Pays s [] (s.report t p) := by
  rw [State.report]
  split
  · exact .refl s
  · refine .of_eq rfl rfl ?_
    intro d hd hcode
    rcases Array.mem_push.mp hd with hd | rfl
    · exact hd
    · obtain ⟨lexeme, hlexeme⟩ := exists_of_code_eq hcode
      exact absurd hlexeme (hp lexeme)

theorem emitAll {code : List Instruction} (h : ∀ i ∈ code, ∀ line, constants [(i, line)] = [])
    (s : State) : Pays s [] (s.emitAll code) := by
  rw [State.emitAll]
  induction code generalizing s with
  | nil => exact .refl s
  | cons i rest ih =>
      have hfirst : Pays s [] (s.emit i) := by
        refine .of_eq rfl ?_ fun _ hd _ => hd
        rw [State.emit, Array.toList_push, constants_append, h i List.mem_cons_self,
          List.append_nil]
      exact hfirst.after (ih (fun j hj => h j (List.mem_cons_of_mem i hj)) (s.emit i))

theorem emit {i : Instruction} (h : ∀ line, constants [(i, line)] = []) (s : State) :
    Pays s [] (s.emit i) := by
  have hall : ∀ j ∈ [i], ∀ line, constants [(j, line)] = [] := by simpa using h
  exact emitAll hall s

theorem checkTarget (s : State) (inputs : List String) (t : Token) :
    Pays s [] (s.checkTarget inputs t) := by
  rw [State.checkTarget]
  repeat' split
  · exact .report (by simp) s t
  · exact .report (by simp) s t
  · exact .refl s

theorem checkDefined (s : State) (inputs : List String) (t : Token) :
    Pays s [] (s.checkDefined inputs t) := by
  rw [State.checkDefined]
  split
  · exact .refl s
  · exact .report (by simp) s t

theorem checkArity (s : State) (t : Token) (f : Builtin) (found : Nat) :
    Pays s [] (s.checkArity t f found) := by
  rw [State.checkArity]
  split
  · exact .refl s
  · exact .report (by simp) s t

theorem checkCount (s : State) (n : Nat) : Pays s [] (s.checkCount n) := by
  rw [State.checkCount]
  split
  · exact .report (by simp) s _
  · exact .refl s

theorem bind (s : State) (inputs : List String) (name : String) :
    Pays s [] (s.bind inputs name) := by
  have hemit : Pays s [] (s.emitAll [.set name, .get name]) := .emitAll (by simp [constants]) s
  rw [State.bind]
  split
  · exact hemit
  · exact hemit.after (.same rfl rfl rfl)

theorem settle (s : State) (ts : List Token) : Pays s [] (s.settle ts) := by
  induction ts generalizing s with
  | nil => exact .same rfl rfl rfl
  | cons t rest ih =>
      rw [State.settle]
      split
      · exact (Pays.report (by simp) s t).after (ih _)
      · exact .same rfl rfl rfl

end Pays

/-! ## Moving through the tokens -/

theorem openers_settleJournal (final : Token) (ts : List Token) (K : List Event) :
    openers (settleJournal final ts ++ K) = openers K := by
  induction ts with
  | nil => rfl
  | cons t rest ih =>
      rw [settleJournal]
      split
      · exact ih
      · rfl

theorem Pays.advance (s : State) : Pays s [] s.advance := by
  have htaken : Pays s [] { s with previous := s.current } := .same rfl rfl rfl
  exact htaken.after (.settle { s with previous := s.current } s.pending.tail)

theorem openers_advanceJournal (s : State) (K : List Event) :
    openers (s.advanceJournal ++ K) = openers K :=
  openers_settleJournal s.final s.pending.tail K

theorem openers_advanceJournal_nil (s : State) : openers s.advanceJournal = [] := by
  have h := openers_advanceJournal s []
  rwa [List.append_nil] at h

theorem advance_pays (s : State) : Pays s s.advanceJournal s.advance := by
  refine (Pays.advance s).of_none (fun K => ?_) fun _ => ?_
  · rw [openers_advanceJournal, openers_advanceJournal_nil, List.nil_append]
  · rw [literals, openers_advanceJournal_nil, numbers_nil]

theorem expect_pays (s : State) (what : Expectation) :
    Pays s (s.expectJournal what) (s.expect what) := by
  rw [State.expectJournal, State.expect]
  split
  · exact advance_pays s
  · exact .report (by simp) s _

theorem refuse_pays (s : State) (canAssign : Bool) :
    Pays s (s.refuseJournal canAssign) (s.refuseTarget canAssign) := by
  rw [State.refuseJournal, State.refuseTarget]
  split
  · exact (advance_pays s).after (.report (by simp) _ _)
  · exact .refl s

/-! ## Operands -/

theorem previous_settle (s : State) (ts : List Token) : (s.settle ts).previous = s.previous := by
  induction ts generalizing s with
  | nil => rfl
  | cons t rest ih =>
      rw [State.settle]
      split
      · rw [ih, State.report]
        split <;> rfl
      · rfl

theorem report_same (s : State) (t : Token) (p : Problem) :
    (s.report t p).emitted = s.emitted ∧ (s.report t p).previous = s.previous := by
  rw [State.report]
  split <;> exact ⟨rfl, rfl⟩

/-- A number token has its constant emitted, which is zero only in place of a
value that it does not have. -/
theorem number_emits (s : State) (t : Token) :
    constants (s.number t).emitted.toList =
        constants s.emitted.toList ++ [(literal t, s.previous.line)] ∧
      ∀ d ∈ (s.number t).diagnostics, d.code = "P004" →
        d ∈ s.diagnostics ∨ Decimal.read? t.lexeme = none := by
  rw [State.number, literal]
  cases hread : Decimal.read? t.lexeme with
  | some value => exact ⟨by simp [State.emit, constants], fun d hd _ => Or.inl hd⟩
  | none =>
      obtain ⟨hemitted, hprevious⟩ := report_same s t (.invalidNumber t.lexeme)
      refine ⟨?_, fun _ _ _ => Or.inr rfl⟩
      simp [State.emit, constants, hemitted, hprevious]

/-- An expression opens with the token ahead. -/
theorem openers_opening (s : State) (K : List Event) :
    openers (.visit .expression :: s.advanceJournal ++ K) = s.current :: openers K :=
  congrArg (s.current :: ·) (openers_settleJournal s.final s.pending.tail K)

theorem openers_opening_nil (s : State) :
    openers (.visit .expression :: s.advanceJournal) = [s.current] := by
  have h := openers_opening s []
  rwa [List.append_nil] at h

/-- Only a token that opens a number can be a literal. -/
theorem kind_current (h : s.ahead.opening ≠ some .number) (hf : s.final.kind ≠ .number) :
    s.current.kind ≠ .number := by
  intro hkind
  cases hp : s.pending with
  | nil =>
      rw [State.current, hp] at hkind
      exact hf hkind
  | cons t rest =>
      rw [State.current, hp] at hkind
      rw [State.ahead, hp] at h
      exact h (congrArg Token.Kind.opening hkind)

theorem opening_pays (h : s.ahead.opening ≠ some .number) :
    Pays s (.visit .expression :: s.advanceJournal) s.advance := by
  refine (Pays.advance s).of_none (fun K => ?_) fun hf => ?_
  · rw [openers_opening, openers_opening_nil]
    rfl
  · rw [literals, openers_opening_nil, numbers_cons_of_ne _ (kind_current h hf), numbers_nil]

theorem number_pays (h : s.ahead.opening = some .number) :
    Pays s (.visit .expression :: s.advanceJournal) (s.advance.number s.current) := by
  have hstep := Pays.advance s
  have hkind : s.current.kind = .number := by
    obtain ⟨t, rest, -, hcurrent, hahead⟩ := State.exists_of_ahead (ahead_ne_of_opening h)
    rw [hahead, ← hcurrent] at h
    cases hk : s.current.kind <;> simp [hk, Token.Kind.opening] at h ⊢
  have hone : literals (.visit .expression :: s.advanceJournal) = [s.current] := by
    rw [literals, openers_opening_nil, numbers_cons _ hkind, numbers_nil]
  have hprevious : s.advance.previous = s.current := previous_settle _ _
  obtain ⟨hpaid, haccepted⟩ := number_emits s.advance s.current
  refine ⟨(Goes.stepwise.number ..).final.trans hstep.final, fun K => ?_, fun hf => ?_,
    fun d hd hcode => ?_⟩
  · rw [openers_opening, openers_opening_nil]
    rfl
  · rw [hpaid, hstep.paid hf, hone, hprevious, List.append_assoc]
    rfl
  · rw [hone]
    rcases haccepted d hd hcode with hd | hnone
    · exact Or.inl (by simpa [literals] using hstep.accepted d hd hcode)
    · exact Or.inr ⟨s.current, List.mem_singleton_self _, hnone⟩

/-! ## The grammar -/

variable (inputs : List String)

theorem called_pays (s : State) (t : Token) :
    Pays s s.advanceJournal (s.called inputs t) := by
  have hmove : ∀ r : State, Pays s [] r → r.pending = s.pending →
      Pays s s.advanceJournal r.advance := by
    intro r hr hp
    have hjournal : r.advanceJournal = s.advanceJournal := State.advanceJournal_congr hp hr.final
    exact hjournal ▸ hr.before (advance_pays r)
  have hget : ∀ r : State, Pays r [] (r.emit (.get t.lexeme)) :=
    fun r => .emit (fun _ => rfl) r
  rw [State.called]
  split
  · exact hmove _ (hget s) rfl
  · exact (hmove _ ((Pays.checkDefined s inputs t).after (hget _))
      (State.pending_checkDefined ..)).after (.report (by simp) _ _)

mutual

theorem expression_pays (level : Precedence) (s : State) :
    Pays s (expressionJournal inputs level s) (expression inputs level s) := by
  rw [expressionJournal, expression_eq]
  cases h : s.ahead.opening with
  | none =>
      dsimp only
      rw [List.append_nil]
      exact (opening_pays (by simp [h])).after (.report (by simp) _ _)
  | some o =>
      have hlt := s.advance_pending_lt (ahead_ne_of_opening h)
      have hle := operand_pending_le inputs o s.current (decide (level ≤ .assignment)) s.advance
      have hfirst : Pays s (.visit .expression :: s.advanceJournal ++
          operandJournal inputs o s.current (decide (level ≤ .assignment)) s.advance)
          (operand inputs o s.current (decide (level ≤ .assignment)) s.advance) := by
        by_cases hnumber : o = .number
        · rw [hnumber, operand_number, operandJournal.eq_def, List.append_nil]
          exact number_pays (hnumber ▸ h)
        · have hopening : s.ahead.opening ≠ some .number := by
            rw [h]
            exact fun heq => hnumber (Option.some.inj heq)
          exact (opening_pays hopening).trans (operand_pays o s.current _ s.advance hnumber)
      have hwhole := (hfirst.trans (operators_pays level _)).trans
        (refuse_pays _ (decide (level ≤ .assignment)))
      simpa only [List.append_assoc] using hwhole
termination_by 4 * s.pending.length + 0
decreasing_by all_goals omega

theorem operand_pays (o : Opening) (t : Token) (b : Bool) (s : State) (ho : o ≠ .number) :
    Pays s (operandJournal inputs o t b s) (operand inputs o t b s) := by
  rw [operandJournal.eq_def]
  cases o with
  | grouping =>
      rw [operand_grouping]
      exact (expression_pays _ s).trans (expect_pays _ _)
  | unary op =>
      rw [operand_unary]
      exact (expression_pays _ s).after (.emit (fun _ => rfl) _)
  | number => exact absurd rfl ho
  | «variable» =>
      dsimp only
      rw [operand_variable]
      by_cases he : b = true ∧ s.ahead = .equal
      · have hlt : (s.advance.checkTarget inputs t).pending.length < s.pending.length := by
          rw [State.pending_checkTarget]
          exact s.advance_pending_lt (by simp [he.2])
        rw [dif_pos he, if_pos he]
        exact (((advance_pays s).after (.checkTarget _ inputs t)).trans
          (expression_pays _ _)).after (.bind _ inputs _)
      · rw [dif_neg he, if_neg he]
        by_cases hp : s.ahead = .leftParen
        · have hlt := s.called_pending_lt inputs t (by simp [hp])
          have hargs := (called_pays inputs s t).trans (arguments_pays (s.called inputs t))
          rw [dif_pos hp]
          rw [State.called] at hargs ⊢
          cases hf : Builtin.ofName? t.lexeme with
          | some f =>
              simp only [hf, Option.isSome_some, if_true, if_pos hp] at hargs ⊢
              exact (hargs.after (.checkArity _ t f _)).after (.emit (fun _ => rfl) _)
          | none =>
              simp only [hf, Option.isSome_none, Bool.false_eq_true, if_false, if_pos hp] at hargs ⊢
              exact hargs.after (.emit (fun _ => rfl) _)
        · rw [dif_neg hp]
          cases Builtin.ofName? t.lexeme with
          | some f =>
              dsimp only
              rw [if_neg hp]
              exact (Pays.emit (fun _ => rfl) s).after (.report (by simp) _ _)
          | none =>
              dsimp only
              rw [if_neg hp]
              exact (Pays.checkDefined s inputs t).after (.emit (fun _ => rfl) _)
termination_by 4 * s.pending.length + 1
decreasing_by all_goals omega

theorem operators_pays (level : Precedence) (s : State) :
    Pays s (operatorsJournal inputs level s) (operators inputs level s) := by
  rw [operatorsJournal, operators_eq]
  cases h : s.ahead.operator with
  | none => exact .refl s
  | some op =>
      have hlt := s.advance_pending_lt (ahead_ne_of_operator h)
      have hle := expression_pending_le inputs op.precedence.next s.advance
      have hright : ((expression inputs op.precedence.next s.advance).emitAll
          op.code).pending.length < s.pending.length := by
        rw [State.pending_emitAll]
        omega
      have hcode : ∀ i ∈ op.code, ∀ line, constants [(i, line)] = [] := by
        rw [Operator.code]
        split <;> simp [constants]
      dsimp only
      split
      · have hoperand := ((advance_pays s).visit (p := .operator) (by simp)).trans
          (expression_pays op.precedence.next s.advance)
        exact (hoperand.after (.emitAll hcode _)).trans (operators_pays level _)
      · exact .refl s
termination_by 4 * s.pending.length + 1
decreasing_by all_goals omega

theorem arguments_pays (s : State) :
    Pays s (argumentsJournal inputs s) (arguments inputs s).1 := by
  rw [argumentsJournal, arguments_eq]
  split
  · exact expect_pays s _
  · exact (argument_pays 0 s).trans (expect_pays _ _)
termination_by 4 * s.pending.length + 2
decreasing_by all_goals omega

theorem argument_pays (count : Nat) (s : State) :
    Pays s (argumentJournal inputs count s) (argument inputs count s).1 := by
  have hvalue := (((expression_pays .assignment s).visit (p := .argument) (by simp)).after
    (.checkCount _ count))
  rw [argumentJournal, argument_eq]
  by_cases h : ((expression inputs .assignment s).checkCount count).ahead = .comma
  · have hlt := ((expression inputs .assignment s).checkCount count).advance_pending_lt
      (by simp [h])
    have hle := expression_pending_le inputs .assignment s
    have hlength := congrArg List.length
      (State.pending_checkCount (expression inputs .assignment s) count)
    rw [dif_pos h, if_pos h]
    exact hvalue.trans ((advance_pays _).trans (argument_pays (count + 1) _))
  · rw [dif_neg h, if_neg h, List.append_nil]
    exact hvalue
termination_by 4 * s.pending.length + 1
decreasing_by all_goals omega

end

/-! ## Programs -/

theorem skip_pays (s : State) : Pays s s.skipJournal s.skipStatement := by
  fun_induction State.skipStatement s with
  | case1 s hp =>
      rw [State.skipJournal, dif_pos hp]
      exact .refl s
  | case2 s hp hsemicolon =>
      rw [State.skipJournal, dif_neg hp, if_pos hsemicolon]
      exact (Pays.refl s).visit (by simp)
  | case3 s hp hsemicolon ih =>
      rw [State.skipJournal, dif_neg hp, if_neg hsemicolon]
      exact ((advance_pays s).trans ih).visit (by simp)

theorem recover_pays (s : State) : Pays s s.recoverJournal s.recoverIfPanicking := by
  rw [State.recoverJournal, State.recoverIfPanicking]
  split
  · have hcalm : Pays s [] { s with panicking := false } := .same rfl rfl rfl
    exact hcalm.trans (skip_pays { s with panicking := false })
  · exact .refl s

theorem statement_pays (s : State) :
    Pays s (statementJournal inputs s) (statement inputs s) :=
  ((expression_pays inputs .assignment s).trans (expect_pays _ _)).after (.emit (fun _ => rfl) _)

theorem statements_pays (s : State) :
    Pays s (statementsJournal inputs s) (statements inputs s) := by
  fun_induction statements inputs s with
  | case1 s hp =>
      have hend := advance_pays s
      rw [statementsJournal, dif_pos hp]
      rw [State.advance_of_nil hp] at hend
      exact hend.after (.same rfl rfl rfl)
  | case2 s hp ih =>
      rw [statementsJournal, dif_neg hp, List.cons_append, List.cons_append, List.append_assoc]
      exact ((statement_pays inputs s).trans ((recover_pays _).trans ih)).visit (by simp)

end

end Compiler

/-! ## Sources that are accepted -/

namespace Syntax

open Compiler

theorem constants_code (op : Operator) (line : Nat) :
    constants (op.code.map fun i => (i, line)) = [] := by
  rw [Operator.code]
  split <;> rfl

mutual

/-- The constants of an expression are the values of its number tokens. -/
theorem Derives.constants_code :
    ∀ {level : Precedence} {ts : List Token} {e : Expr}, Derives level ts e →
      constants e.code = values (numbers ts)
  | _, _, _, .number hk => by
      rw [numbers_cons _ hk]
      rfl
  | _, _, _, .name hk => by
      rw [numbers_cons_of_ne _ (by simp [hk])]
      rfl
  | _, _, _, .group ho hi hc => by
      rw [Expr.code, hi.constants_code, List.cons_append, numbers_cons_of_ne _ (by simp [ho]),
        numbers_append, numbers_cons_of_ne _ (by simp [hc]), numbers_nil, List.append_nil]
  | _, _, _, .call hk ho ha hc => by
      rw [List.cons_append, List.cons_append, numbers_cons_of_ne _ (by simp [hk]),
        numbers_cons_of_ne _ (by simp [ho]), numbers_append, numbers_cons_of_ne _ (by simp [hc]),
        numbers_nil, List.append_nil, ← ha.constants_codeAll, Expr.code, constants_append]
      exact List.append_nil _
  | _, _, _, .unary hs hd => by
      have ho := mem_unarySigns_iff.mp hs
      rw [numbers_cons_of_ne _ (fun hk => by simp [hk, Token.Kind.opening] at ho),
        ← hd.constants_code, Expr.code, constants_append]
      exact List.append_nil _
  | _, _, _, .binary hs hl hr => by
      have ho := (mem_signs_iff.mp hs).1
      rw [numbers_append, numbers_cons_of_ne _ (fun hk => by simp [hk, Token.Kind.operator] at ho),
        values_append, ← hl.constants_code, ← hr.constants_code, Expr.code, constants_append,
        constants_append, operatorCode_eq, Syntax.constants_code, List.append_nil]
  | _, _, _, .tighter hd => hd.constants_code
  | _, _, _, .assign ht hs hd => by
      rw [numbers_cons_of_ne _ (by simp [ht]), numbers_cons_of_ne _ (by simp [hs]),
        ← hd.constants_code, Expr.code, constants_append]
      exact List.append_nil _

theorem DerivesArgs.constants_codeAll :
    ∀ {ts : List Token} {es : List Expr}, DerivesArgs ts es →
      constants (codeAll es) = values (numbers ts)
  | _, _, .none => rfl
  | _, _, .one hd => by
      rw [codeAll, codeAll, List.append_nil]
      exact hd.constants_code
  | _, _, .more hd hk ha => by
      rw [codeAll, constants_append, hd.constants_code, ha.constants_codeAll, numbers_append,
        numbers_cons_of_ne _ (by simp [hk]), values_append]

end

theorem DerivesProgram.constants_code {ts : List Token} {program : List Statement}
    (h : DerivesProgram ts program) : constants (code program) = values (numbers ts) := by
  induction h with
  | nil => rfl
  | cons hd hk _ ih =>
      rw [code, List.flatMap_cons, ← code, Statement.code, constants_append, constants_append, ih,
        hd.constants_code, numbers_append, numbers_cons_of_ne _ (by simp [hk]), values_append]
      rw [show constants [(Instruction.pop, _)] = [] from rfl, List.append_nil]

end Syntax

/-! ## Whole compilations -/

namespace Compiler

open Token

theorem mem_takes_of_mem_openers {J : List Event} {t : Token} (h : t ∈ openers J) :
    t ∈ takes J := by
  fun_induction openers J with
  | case1 u rest ih =>
      rw [takes_visit, takes_take]
      rcases List.mem_cons.mp h with rfl | h
      · exact List.mem_cons_self
      · exact List.mem_cons_of_mem u (ih h)
  | case2 e rest _ ih =>
      cases e with
      | visit p => exact ih h
      | take u => exact List.mem_cons_of_mem u (ih h)
      | pull u => exact ih h
  | case3 => cases h

variable (assigned inputs : List String) (source : String)

/-- Literals are number tokens of the source. -/
theorem mem_scan_of_mem_literals {t : Token} (h : t ∈ literals (journal assigned inputs source)) :
    t ∈ scan source ∧ t.kind = .number := by
  obtain ⟨ht, hk⟩ := List.mem_filter.mp h
  replace hk : t.kind = .number := of_decide_eq_true hk
  obtain ⟨-, k, htakes, -⟩ := journal_spec assigned source inputs
  have hmem := mem_takes_of_mem_openers ht
  rw [htakes] at hmem
  refine ⟨(List.mem_append.mp hmem).resolve_right fun hend => ?_, hk⟩
  rw [List.eq_of_mem_replicate hend] at hk
  cases hk

theorem values_eq {ts : List Token} (h : ∀ t ∈ ts, t ∈ scan source ∧ t.kind = .number) :
    (values ts).map (fun c => (some c.1, c.2)) =
      ts.map fun t => (Decimal.read? t.lexeme, t.line) := by
  rw [values, List.map_map]
  refine List.map_congr_left fun t ht => ?_
  obtain ⟨hscan, hk⟩ := h t ht
  obtain ⟨x, hx⟩ := Option.isSome_iff_exists.mp (readable_scan source hscan hk)
  simp [Syntax.literal, hx]

theorem finish_pays :
    constants (finish assigned inputs source).emitted.toList =
        values (literals (journal assigned inputs source)) ∧
      ∀ d ∈ (finish assigned inputs source).diagnostics, d.code ≠ "P004" := by
  have hstart : Pays ⟨endOf source, [], endOf source, false, assigned, #[], #[]⟩ []
      (State.start assigned (scan source) (endOf source)) := .settle _ _
  have hrest := hstart.before (statements_pays inputs _)
  have hliterals : literals (journal assigned inputs source) =
      literals (statementsJournal inputs
        (State.start assigned (scan source) (endOf source))) := by
    rw [literals, journal, openers_settleJournal]
    rfl
  have hend : (endOf source).kind ≠ .number := Token.Kind.noConfusion
  rw [finish, hliterals]
  refine ⟨hrest.paid hend, fun d hd hcode => ?_⟩
  rcases hrest.accepted d hd hcode with hnone | ⟨t, ht, hnone⟩
  · exact absurd hnone (by simp)
  · rw [← hliterals] at ht
    obtain ⟨hscan, hk⟩ := mem_scan_of_mem_literals assigned inputs source ht
    have hsome := readable_scan source hscan hk
    rw [hnone] at hsome
    cases hsome

end Compiler

open Compiler Token in
/-- The lexeme of each number token is a decimal, and every decimal has a
value.  So no compilation reports a number without one, and the constants that
it emits are the values of the literals that it takes as operands, each once,
in order and on the line of its token.  In the chunk of a source that is
accepted they are the values of all number tokens. -/
theorem literals_valued (assigned inputs : List String) (source : String) :
    (∀ t ∈ scan source, t.kind = .number → t.lexeme.toList ∈ Decimal.plain) ∧
      (∀ w ∈ Decimal.plain, (Decimal.read? (String.ofList w)).isSome) ∧
      (∀ d ∈ (finish assigned inputs source).diagnostics, d.code ≠ "P004") ∧
      (constants (finish assigned inputs source).emitted.toList).map
          (fun c => (some c.1, c.2)) =
        (literals (journal assigned inputs source)).map
          (fun t => (Decimal.read? t.lexeme, t.line)) ∧
      ∀ chunk, compileAfter assigned inputs source = .ok chunk →
        (constants (chunk.instructions.zip chunk.lines)).map (fun c => (some c.1, c.2)) =
          (numbers (scan source)).map fun t => (Decimal.read? t.lexeme, t.line) := by
  obtain ⟨hpaid, haccepted⟩ := finish_pays assigned inputs source
  refine ⟨fun t ht hk => ?_, fun w hw => Decimal.isSome_read?_of_mem_plain hw, haccepted, ?_,
    fun chunk hchunk => ?_⟩
  · have hword := lexeme_mem_of_mem_scan ht (by rw [hk]; rfl)
    rw [hk] at hword
    exact Decimal.lexemes_number_le hword
  · rw [hpaid]
    exact values_eq source fun t ht => mem_scan_of_mem_literals assigned inputs source ht
  · obtain ⟨program, hprogram, -, rfl⟩ := compileAfter_eq_ok_iff.mp hchunk
    have hcode : (Chunk.ofEmitted (Syntax.code program)).instructions.zip
        (Chunk.ofEmitted (Syntax.code program)).lines = Syntax.code program :=
      (List.zip_map' ..).trans (List.map_id _)
    rw [hcode, hprogram.constants_code]
    refine values_eq source fun t ht => ?_
    obtain ⟨hscan, hk⟩ := List.mem_filter.mp ht
    exact ⟨hscan, of_decide_eq_true hk⟩

open Compiler Token in
/-- A point without a digit behind it is no part of the number before it, and
is all that is reported.  Without it the two numbers become constants. -/
theorem literals_valued_point :
    (∃ t ∈ scan "1.+.5;", t.kind = .number ∧ t.lexeme = ".5" ∧ t.lexeme.toList ∈ Decimal.plain ∧
        (Decimal.read? (String.ofList t.lexeme.toList)).isSome) ∧
      (∃ d ∈ (finish [] [] "1.+.5;").diagnostics, d.code = "L001" ∧ d.code ≠ "P004") ∧
      compileAfter [] [] "1+.5;" =
        .ok ⟨[.constant 1, .constant 0.5, .binary .add, .pop], [1, 1, 1, 1], 2⟩ ∧
      [(some 1, 1), (some 0.5, 1)] = [(Decimal.read? "1", 1), (Decimal.read? ".5", 1)] := by
  obtain ⟨hplain, hread, haccepted, -, -⟩ := literals_valued [] [] "1.+.5;"
  have hdot : ⟨.number, ".5", 1, ⟨3, 5⟩⟩ ∈ scan "1.+.5;" := by
    with_unfolding_all exact .tail _ (.tail _ (.tail _ (.head _)))
  have hstray : ⟨.unexpectedCharacter '.', 1, ⟨1, 2⟩⟩ ∈ (finish [] [] "1.+.5;").diagnostics := by
    have hall : (finish [] [] "1.+.5;").diagnostics = #[⟨.unexpectedCharacter '.', 1, ⟨1, 2⟩⟩] := by
      with_unfolding_all rfl
    rw [hall]
    exact Array.mem_singleton.mpr rfl
  have hchunk : compileAfter [] [] "1+.5;" =
      .ok ⟨[.constant 1, .constant 0.5, .binary .add, .pop], [1, 1, 1, 1], 2⟩ := by
    with_unfolding_all rfl
  have hvalues := (literals_valued [] [] "1+.5;").2.2.2.2 _ hchunk
  have hnumbers : (numbers (scan "1+.5;")).map (fun t => (Decimal.read? t.lexeme, t.line)) =
      [(Decimal.read? "1", 1), (Decimal.read? ".5", 1)] := by
    with_unfolding_all rfl
  exact ⟨⟨_, hdot, rfl, rfl, hplain _ hdot rfl, hread _ (hplain _ hdot rfl)⟩,
    ⟨_, hstray, rfl, haccepted _ hstray⟩, hchunk, hvalues.trans hnumbers⟩

end Pixelwise
