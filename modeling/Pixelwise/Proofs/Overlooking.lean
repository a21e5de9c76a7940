/-
Overlooking — when a name that stands for nothing is not reported.

The compiler reports an unexpected character when the token before it is
taken.  If that token is a name which stands for nothing, the panic has begun
when the name is looked at, and so the name is overlooked.  There is no other
way to overlook it, if all is well in form up to the name.

Main statement: `undefined_reported_iff`.
-/
import Mathlib.Data.List.Basic
import Pixelwise.Proofs.Cascading
import Pixelwise.Proofs.Covering
import Pixelwise.Proofs.Diagnosis
import Pixelwise.Proofs.Targeting
import Pixelwise.Proofs.Waiting

namespace Pixelwise

open Syntax Compiler Token

/-- A name is read, which is no input, none of the library and assigned
nowhere in the source.  The statements before its own are derivable, and in
its own there is neither an unexpected character nor a problem of form at the
name or before it. -/
structure ReadsUndefined (inputs : List String) (source : String) (front : List Token) (t : Token)
    (back tail : List Token) : Prop where
  whole : ∃ before program, scan source = before ++ (front ++ t :: back ++ tail) ∧
    DerivesProgram before program
  bare : Bare (front ++ t :: back)
  closed : tail = [] ∨ kindAhead tail = .semicolon
  identifier : t.kind = .identifier
  input : t.lexeme ∉ inputs
  library : ¬ isLibrary t
  assignee : ¬ Assignee (scan source) t.lexeme
  clean : ∀ u ∈ front, u.kind.isUnexpected = false
  form : ∀ d ∈ reported inputs source (front ++ t :: back) tail, d.problem.isSyntax = true →
    t.span.start < d.span.start

theorem closed_of_program {ts : List Token} {program : List Statement}
    (h : DerivesProgram ts program) : Closed ts := by
  induction h with
  | nil => simp [Closed]
  | @cons us rest semicolon e program _ hk _ ih =>
      by_cases hnil : rest = []
      · rw [hnil]
        exact .snoc us hk
      · have hlast : (us ++ semicolon :: rest).getLast? = rest.getLast? := by
          rw [List.append_cons, List.getLast?_append_of_ne_nil _ hnil]
        rw [Closed, hlast]
        exact ih

namespace ReadsUndefined

variable {inputs : List String} {source : String} {front back tail : List Token} {t : Token}

theorem cuts (h : ReadsUndefined inputs source front t back tail) :
    Cuts (scan source) (front ++ t :: back) tail := by
  obtain ⟨before, program, hsource, hprogram⟩ := h.whole
  exact ⟨⟨before, hsource, closed_of_program hprogram⟩, h.bare, h.closed⟩

/-- The tokens before the name in its statement stand before it. -/
theorem before_name (h : ReadsUndefined inputs source front t back tail) :
    ∀ u ∈ front, u.span.start < t.span.start := by
  obtain ⟨before, -, hsource, -⟩ := h.whole
  intro u hu
  have hsplit : scan source = (before ++ front) ++ (t :: (back ++ tail)) := by
    rw [hsource]
    simp
  have hstop := stop_le_start hsplit (List.mem_append_right before hu) List.mem_cons_self
  have hne := nonempty_of_mem_scan (show u ∈ scan source by simp [hsplit, hu])
  omega

theorem unknown (h : ReadsUndefined inputs source front t back tail) :
    Unknown inputs front t where
  identifier := h.identifier
  library := h.library
  input := h.input
  language u hu := ⟨h.clean u hu, h.bare u (List.mem_append_left _ hu)⟩
  span u hu he := by
    have hlt := h.before_name u hu
    rw [he] at hlt
    omega

theorem settled (h : ReadsUndefined inputs source front t back tail) (rest : List Token) :
    Settled (front ++ t :: rest) := by
  cases front with
  | nil => exact settled_of_kind h.identifier rfl
  | cons u us => exact h.clean u List.mem_cons_self

/-- A calm round that begins at the statement reports the name or loses it;
and it loses it exactly if an unexpected character is right behind it. -/
theorem statement (h : ReadsUndefined inputs source front t back tail) {s : State}
    (hs : Begins inputs source s) (hcalm : s.panicking = false)
    (hp : s.pending = front ++ t :: back ++ tail) :
    New (unnamed t) s (statement inputs s) ↔ Settled (back ++ tail) := by
  have hne : s.pending ≠ [] := by simp [hp]
  have hfresh : t.lexeme ∉ (Compiler.statement inputs s).assigned := fun hmem =>
    h.assignee (assignee_of_assigned hs hne hmem)
  have hpending : s.pending = front ++ t :: (back ++ tail) := by simp [hp]
  cases statement_told h.unknown hcalm hpending hfresh with
  | @broken d u hnew hform hu hspan =>
      exfalso
      have hmem : d ∈ reported inputs source (front ++ t :: back) tail := by
        refine List.mem_filter.mpr ⟨?_, decide_eq_true (belongs_iff.mpr ⟨u, ?_, hspan⟩)⟩
        · rw [problems_eq]
          exact Array.mem_toList_iff.mpr (mem_finish_of_new hs hne hnew)
        · rcases List.mem_append.mp hu with hu | hu
          · simp [places, hu]
          · simp [places, List.mem_singleton.mp hu]
      have hafter := h.form d hmem hform
      rw [hspan] at hafter
      rcases List.mem_append.mp hu with hu | hu
      · have := h.before_name u hu
        omega
      · rw [List.mem_singleton.mp hu] at hafter
        omega
  | named hsettled hnew => exact iff_of_true hnew hsettled
  | lost hunsettled _ hsilent => exact iff_of_false hsilent.not_new hunsettled

end ReadsUndefined

/-- A name that is read and stands for nothing is reported at its own place
exactly if no unexpected character comes right behind it.  No other lexical
or syntax error behind the name hides it. -/
theorem undefined_reported_iff {inputs : List String} {source : String}
    {front back tail : List Token} {t : Token}
    (h : ReadsUndefined inputs source front t back tail) :
    at' (.undefinedName t.lexeme) t ∈ problems inputs source ↔ Settled (back ++ tail) := by
  rw [problems_eq, Array.mem_toList_iff]
  constructor
  · intro hmem
    rcases mem_finish_iff.mp hmem with hstray | ⟨s, hs, hne, hnew⟩
    · obtain ⟨u, rest, c, -, -, hd⟩ := mem_strayAhead_iff.mp hstray
      simp [at'] at hd
    · rcases new_round_iff.mp hnew with hnew | ⟨-, hnew⟩
      · obtain ⟨us, after, hcuts, -, ⟨u, hu, hspan⟩, hhome⟩ := statement_home hs hne hnew
        have ht : t ∈ places source (front ++ t :: back) tail := by simp [places]
        obtain ⟨rfl, rfl⟩ := h.cuts.unique hcuts ht hu hspan
        rcases hhome with ⟨-, hstray⟩ | ⟨hcalm, hp, -⟩
        · obtain ⟨v, rest, c, -, -, hd⟩ := mem_strayAhead_iff.mp hstray
          simp [at'] at hd
        · rw [clear_of_settled (h.settled back)] at hp
          exact (h.statement hs hcalm hp).mp hnew
      · obtain ⟨c, hc⟩ := skip_unexpected hnew
        simp [at'] at hc
  · intro hsettled
    obtain ⟨before, program, hsource, hprogram⟩ := h.whole
    have hstarts := h.settled (back ++ tail)
    rw [← List.cons_append, ← List.append_assoc] at hstarts
    obtain ⟨s, hs, hcalm, hp⟩ := begins_behind hprogram hstarts hsource
    exact mem_finish_of_new hs (by simp [hp]) ((h.statement hs hcalm hp).mpr hsettled)

/-- The character behind the last operator is reported, and so is the name
before it. -/
theorem undefined_reported_product :
    let t : Token := ⟨.identifier, "z", 1, ⟨7, 8⟩⟩
    let front : List Token := [⟨.identifier, "x", 1, ⟨3, 4⟩⟩, ⟨.plus, "+", 1, ⟨5, 6⟩⟩]
    let back : List Token := [⟨.star, "*", 1, ⟨9, 10⟩⟩, ⟨.unexpected '@', "@", 1, ⟨11, 12⟩⟩]
    let tail : List Token := [⟨.semicolon, ";", 1, ⟨12, 13⟩⟩]
    ReadsUndefined ["x"] "x; x + z * @;" front t back tail ∧
      at' (.undefinedName "z") t ∈ problems ["x"] "x; x + z * @;" := by
  intro t front back tail
  let read : Token := ⟨.identifier, "x", 1, ⟨0, 1⟩⟩
  let semicolon : Token := ⟨.semicolon, ";", 1, ⟨1, 2⟩⟩
  have hscan : scan "x; x + z * @;" = [read, semicolon] ++ (front ++ t :: back ++ tail) := by
    with_unfolding_all rfl
  have hproblems : problems ["x"] "x; x + z * @;" =
      [at' (.undefinedName "z") t, ⟨.unexpectedCharacter '@', 1, ⟨11, 12⟩⟩] := by
    with_unfolding_all rfl
  have hprogram : DerivesProgram [read, semicolon] [⟨.name read, semicolon⟩] := by
    have hread : Derives .assignment [read] (.name read) := .loosen (.name rfl) (by decide)
    exact .cons hread rfl .nil
  have hassignee : ¬ Assignee (scan "x; x + z * @;") "z" := by
    intro hz
    obtain ⟨sign, hsign, hk⟩ := hz.exists_equal
    rw [hscan] at hsign
    revert sign
    decide
  have hreads : ReadsUndefined ["x"] "x; x + z * @;" front t back tail := by
    refine ⟨⟨_, _, hscan, hprogram⟩, ?_, Or.inr rfl, rfl, by decide, by decide, hassignee,
      by decide, ?_⟩
    · rw [Bare]
      decide
    · intro d hd hform
      have hmem := (List.mem_filter.mp hd).1
      rw [hproblems] at hmem
      rcases List.mem_cons.mp hmem with rfl | hmem
      · cases hform
      · obtain rfl := List.mem_singleton.mp hmem
        decide
  exact ⟨hreads, (undefined_reported_iff hreads).mpr rfl⟩

/-- In `z @ ;` the name is overlooked, for the character behind it. -/
theorem undefined_overlooked :
    ¬ ∀ (inputs : List String) (source : String) (front back tail : List Token) (t : Token),
      ReadsUndefined inputs source front t back tail →
      at' (.undefinedName t.lexeme) t ∈ problems inputs source := by
  intro h
  let t : Token := ⟨.identifier, "z", 1, ⟨0, 1⟩⟩
  let stray : Token := ⟨.unexpected '@', "@", 1, ⟨2, 3⟩⟩
  let semicolon : Token := ⟨.semicolon, ";", 1, ⟨4, 5⟩⟩
  have hscan : scan "z @ ;" = [t, stray, semicolon] := by with_unfolding_all rfl
  have hproblems : problems [] "z @ ;" = [at' (.unexpectedCharacter '@') stray] := by
    with_unfolding_all rfl
  have hassignee : ¬ Assignee (scan "z @ ;") "z" := by
    intro hz
    obtain ⟨sign, hsign, hk⟩ := hz.exists_equal
    rw [hscan] at hsign
    revert sign
    decide
  have hreads : ReadsUndefined [] "z @ ;" [] t [stray] [semicolon] := by
    refine ⟨⟨[], [], hscan, .nil⟩, by simp [Bare, t, stray], Or.inr rfl, rfl, by simp, by decide,
      hassignee, by simp, ?_⟩
    intro d hd _
    have hmem := (List.mem_filter.mp hd).1
    rw [hproblems] at hmem
    obtain rfl := List.mem_singleton.mp hmem
    decide
  have hmem := h [] "z @ ;" [] [stray] [semicolon] t hreads
  rw [hproblems] at hmem
  exact absurd (List.mem_singleton.mp hmem) (by decide)

end Pixelwise
