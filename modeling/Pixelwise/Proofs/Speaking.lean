/-
Speaking — in which order problems are reported.

A calm compiler reports what is wrong with names and stays calm.  A problem
of form makes it panic, and from then on it is silent until it has
recovered.  So of the problems that are reported from one recovery to the
next, only the last can be one of form (`Spoken.orderly`), and there is one
if the compiler panics in the end (`Spoken.form_of_panic`).
-/
import Pixelwise.Proofs.Language

namespace Pixelwise

/-- At most one problem is one of form, and nothing is reported after it. -/
structure Orderly (ds : List Diagnostic) : Prop where
  one : (ds.filter (·.problem.isSyntax)).length ≤ 1
  last : ∀ d ∈ ds, d.problem.isSyntax = true → ds.getLast? = some d

theorem orderly_iff {ds : List Diagnostic} :
    Orderly ds ↔ ds.Pairwise fun d _ => d.problem.isSyntax = false := by
  induction ds with
  | nil => exact ⟨fun _ => .nil, fun _ => ⟨by simp, by simp⟩⟩
  | cons d ds ih =>
      have hlast : ds ≠ [] → (d :: ds).getLast? = ds.getLast? := fun hne => by
        simp [List.getLast?_cons, List.getLast?_eq_some_getLast hne]
      rw [List.pairwise_cons, ← ih]
      constructor
      · intro h
        refine ⟨fun e he => Bool.eq_false_iff.mpr fun hd => ?_, ?_, fun e he hform => ?_⟩
        · have hmem : d ∈ ds := List.mem_of_getLast? <|
            (hlast (List.ne_nil_of_mem he)).symm.trans (h.last d List.mem_cons_self hd)
          have hpos : 0 < (ds.filter (·.problem.isSyntax)).length :=
            List.length_pos_of_mem (List.mem_filter.mpr ⟨hmem, hd⟩)
          have hone := h.one
          simp only [List.filter_cons, hd, if_true, List.length_cons] at hone
          omega
        · exact Nat.le_trans ((List.sublist_cons_self d ds).filter _).length_le h.one
        · exact (hlast (List.ne_nil_of_mem he)).symm.trans
            (h.last e (List.mem_cons_of_mem d he) hform)
      · rintro ⟨hnames, h⟩
        cases ds with
        | nil => exact ⟨List.length_filter_le _ _, by simp⟩
        | cons e ds =>
            have hd : ¬ d.problem.isSyntax = true := by simp [hnames e List.mem_cons_self]
            refine ⟨by simpa [hd] using h.one, fun e' he' hform => ?_⟩
            rw [hlast (by simp)]
            rcases List.mem_cons.mp he' with rfl | he'
            · exact absurd hform hd
            · exact h.last e' he' hform

/-- A compiler in one mood reports these problems, one after another, and is
in the other mood then; in the mood `true` it panics. -/
inductive Spoken : Bool → List Diagnostic → Bool → Prop
  | silent {mood : Bool} : Spoken mood [] mood
  | name {d : Diagnostic} {ds : List Diagnostic} {mood : Bool} :
      d.problem.isSyntax = false → Spoken false ds mood → Spoken false (d :: ds) mood
  | form {d : Diagnostic} : d.problem.isSyntax = true → Spoken false [d] true

namespace Spoken

variable {before mid after : Bool} {ds es : List Diagnostic}

theorem append (h : Spoken before ds mid) (h' : Spoken mid es after) :
    Spoken before (ds ++ es) after := by
  induction h with
  | silent => exact h'
  | name hd _ ih => exact .name hd (ih h')
  | form hd =>
      cases h'
      exact .form hd

theorem orderly (h : Spoken before ds after) :
    ds.Pairwise fun d _ => d.problem.isSyntax = false := by
  induction h with
  | silent => exact .nil
  | name hd _ ih => exact .cons (fun _ _ => hd) ih
  | form => exact List.pairwise_singleton _ _

/-- Panic begins with a problem of form. -/
theorem form_of_panic (h : Spoken false ds true) : ∃ d ∈ ds, d.problem.isSyntax = true := by
  generalize hb : false = b at h
  generalize ha : true = a at h
  induction h with
  | silent => simp [← ha] at hb
  | name _ _ ih =>
      obtain ⟨d, hd, hform⟩ := ih hb ha
      exact ⟨d, List.mem_cons_of_mem _ hd, hform⟩
  | form hd => exact ⟨_, List.mem_singleton_self _, hd⟩

end Spoken

namespace Compiler

/-- From `s` to `r` the compiler did not recover. -/
def Speaks (s r : State) : Prop :=
  ∃ ds : List Diagnostic, r.diagnostics = s.diagnostics ++ ds.toArray ∧
    Spoken s.panicking ds r.panicking

namespace Speaks

variable {s r q : State}

theorem of_eq (hd : r.diagnostics = s.diagnostics) (hm : r.panicking = s.panicking) :
    Speaks s r :=
  ⟨[], by simpa using hd, hm ▸ .silent⟩

theorem trans (h : Speaks s r) (h' : Speaks r q) : Speaks s q := by
  obtain ⟨ds, hds, hspoken⟩ := h
  obtain ⟨es, hes, hspoken'⟩ := h'
  exact ⟨ds ++ es, by simp [hes, hds, Array.append_assoc], hspoken.append hspoken'⟩

theorem report (s : State) (t : Token) (p : Problem) : Speaks s (s.report t p) := by
  cases hs : s.panicking with
  | true => exact .of_eq (by rw [State.report_of_panicking hs]) (by rw [State.report_of_panicking hs])
  | false =>
      cases hp : p.isSyntax with
      | true =>
          rw [State.report_form hs hp]
          exact ⟨[⟨p, t.line, t.span⟩], by simp, hs ▸ .form hp⟩
      | false =>
          rw [State.report_other hs hp]
          exact ⟨[⟨p, t.line, t.span⟩], by simp, hs ▸ .name hp .silent⟩

theorem settle (s : State) (ts : List Token) : Speaks s (s.settle ts) := by
  induction ts generalizing s with
  | nil => exact .of_eq rfl rfl
  | cons t rest ih =>
      rw [State.settle]
      split
      · exact (report s t _).trans (ih _)
      · exact .of_eq rfl rfl

theorem stepwise : Stepwise Speaks where
  refl _ := .of_eq rfl rfl
  trans := trans
  report := report
  emit _ _ := .of_eq rfl rfl
  assign _ _ := .of_eq rfl rfl
  advance s := settle { s with previous := s.current } s.pending.tail

end Speaks

end Compiler

end Pixelwise
