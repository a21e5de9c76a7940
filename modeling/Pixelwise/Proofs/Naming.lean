/-
What is wrong with names, and what is allowed, agree.

`diagnose` walks over mentions with the names assigned so far; `WellNamed`
speaks of every mention and of those before it.  Main statement:
`diagnose_eq_nil_iff`, that the walk finds nothing exactly if every mention
is allowed.
-/
import Pixelwise.Syntax.Mention

namespace Pixelwise.Syntax

variable {inputs assigned : List String}

/-! ## The walk, piece by piece -/

@[simp] theorem assignedAfter_nil : assignedAfter inputs assigned [] = assigned := rfl

@[simp] theorem assignedAfter_cons (m : Mention) (ms : List Mention) :
    assignedAfter inputs assigned (m :: ms) =
      assignedAfter inputs (m.assign inputs assigned) ms := rfl

@[simp] theorem assignedAfter_append (xs ys : List Mention) :
    assignedAfter inputs assigned (xs ++ ys) =
      assignedAfter inputs (assignedAfter inputs assigned xs) ys := by
  simp [assignedAfter]

@[simp] theorem diagnose_nil : diagnose inputs assigned [] = [] := rfl

@[simp] theorem diagnose_cons (m : Mention) (ms : List Mention) :
    diagnose inputs assigned (m :: ms) =
      m.problems inputs assigned ++ diagnose inputs (m.assign inputs assigned) ms := rfl

@[simp] theorem diagnose_append (xs ys : List Mention) :
    diagnose inputs assigned (xs ++ ys) =
      diagnose inputs assigned xs ++
        diagnose inputs (assignedAfter inputs assigned xs) ys := by
  induction xs generalizing assigned with
  | nil => rfl
  | cons m rest ih => simp [ih]

/-! ## What the walk knows of the names assigned -/

theorem mem_assign {n : String} {m : Mention} :
    n ∈ m.assign inputs assigned ↔
      n ∈ assigned ∨ ∃ t, m = .assigned t ∧ t.lexeme = n ∧ ¬ isLibrary t ∧ t.lexeme ∉ inputs := by
  cases m with
  | assigned t =>
      simp only [Mention.assign]
      split
      · rename_i h
        constructor
        · exact Or.inl
        · rintro (hn | ⟨u, hu, rfl, hl, hi⟩)
          · exact hn
          · cases hu
            exact absurd h (by simp [hl, hi])
      · rename_i h
        rw [not_or] at h
        simp only [List.mem_cons]
        constructor
        · rintro (rfl | hn)
          · exact Or.inr ⟨t, rfl, rfl, h⟩
          · exact Or.inl hn
        · rintro (hn | ⟨u, hu, rfl, -⟩)
          · exact Or.inr hn
          · cases hu
            exact Or.inl rfl
  | target t | read t | opened t | closed t argc => simp [Mention.assign]

/-- A name is assigned by mentions if a value for it ends among them and
programs can assign it. -/
theorem mem_assignedAfter {n : String} {ms : List Mention} :
    n ∈ assignedAfter inputs assigned ms ↔
      n ∈ assigned ∨
        ∃ t, .assigned t ∈ ms ∧ t.lexeme = n ∧ ¬ isLibrary t ∧ t.lexeme ∉ inputs := by
  induction ms generalizing assigned with
  | nil => simp
  | cons m rest ih =>
      rw [assignedAfter_cons, ih, mem_assign]
      constructor
      · rintro ((hn | ⟨t, rfl, h⟩) | ⟨t, ht, h⟩)
        · exact Or.inl hn
        · exact Or.inr ⟨t, List.mem_cons_self, h⟩
        · exact Or.inr ⟨t, List.mem_cons_of_mem _ ht, h⟩
      · rintro (hn | ⟨t, ht, h⟩)
        · exact Or.inl (Or.inl hn)
        · rcases List.mem_cons.mp ht with rfl | ht
          · exact Or.inl (Or.inr ⟨t, rfl, h⟩)
          · exact Or.inr ⟨t, ht, h⟩

/-! ## The two agree -/

theorem undefined_eq_nil_iff {t : Token} :
    undefined inputs assigned t = [] ↔ t.lexeme ∈ inputs ∨ t.lexeme ∈ assigned := by
  rw [undefined]
  split <;> simp_all

/-- For a name that is none of the library, to be known to the walk is to be
an input or to have been assigned. -/
theorem known_iff {t : Token} (h : ¬ isLibrary t) {before : List Mention} :
    (t.lexeme ∈ inputs ∨ t.lexeme ∈ assignedAfter inputs [] before) ↔
      (t.lexeme ∈ inputs ∨ ∃ u, .assigned u ∈ before ∧ u.lexeme = t.lexeme) := by
  rw [mem_assignedAfter]
  constructor
  · rintro (hi | hn | ⟨u, hu, e, -⟩)
    · exact Or.inl hi
    · exact absurd hn (List.not_mem_nil)
    · exact Or.inr ⟨u, hu, e⟩
  · rintro (hi | ⟨u, hu, e⟩)
    · exact Or.inl hi
    · by_cases hi : t.lexeme ∈ inputs
      · exact Or.inl hi
      · refine Or.inr (Or.inr ⟨u, hu, e, ?_, e ▸ hi⟩)
        rw [isLibrary] at h ⊢
        rwa [e]

/-- A mention has no problem exactly if it is allowed. -/
theorem problems_eq_nil_iff {before : List Mention} {m : Mention} :
    m.problems inputs (assignedAfter inputs [] before) = [] ↔ Allowed inputs before m := by
  cases m with
  | target t => simp only [Mention.problems, Allowed]; repeat' split <;> simp_all
  | assigned t => simp [Mention.problems, Allowed]
  | read t =>
      simp only [Mention.problems, Allowed]
      split
      · simp_all
      · rename_i h
        rw [undefined_eq_nil_iff, known_iff h]
        exact (and_iff_right h).symm
  | opened t => simp only [Mention.problems, Allowed]; split <;> simp_all
  | closed t argc =>
      simp only [Mention.problems, Allowed]
      split
      · rename_i f hf
        simp [hf]
      · rename_i hf
        simp [hf]

/-- The walk over mentions that follow others finds nothing exactly if each
of them is allowed. -/
theorem diagnose_after_eq_nil_iff {ms : List Mention} (before : List Mention) :
    diagnose inputs (assignedAfter inputs [] before) ms = [] ↔
      ∀ xs m ys, ms = xs ++ m :: ys → Allowed inputs (before ++ xs) m := by
  induction ms generalizing before with
  | nil => simp
  | cons m rest ih =>
      have step : (m.assign inputs (assignedAfter inputs [] before)) =
          assignedAfter inputs [] (before ++ [m]) := by simp
      rw [diagnose_cons, List.append_eq_nil_iff, problems_eq_nil_iff, step, ih]
      constructor
      · rintro ⟨hm, hrest⟩ xs n ys e
        cases xs with
        | nil =>
            cases e
            simpa using hm
        | cons x xs =>
            cases e
            simpa using hrest xs n ys rfl
      · intro h
        refine ⟨by simpa using h [] m rest rfl, ?_⟩
        rintro xs n ys rfl
        simpa using h (m :: xs) n ys rfl

/-- Nothing is wrong with mentions exactly if each of them is allowed. -/
theorem diagnose_eq_nil_iff {ms : List Mention} :
    diagnose inputs [] ms = [] ↔ WellNamed inputs ms :=
  diagnose_after_eq_nil_iff []

/-- Where nothing is wrong, every name that is read is of the library, an
input, or assigned in the end. -/
theorem known_of_diagnose {ms : List Mention} {t : Token} (h : diagnose inputs assigned ms = [])
    (ht : .read t ∈ ms ∨ .opened t ∈ ms) :
    isLibrary t ∨ t.lexeme ∈ inputs ∨ t.lexeme ∈ assignedAfter inputs assigned ms := by
  induction ms generalizing assigned with
  | nil => simp at ht
  | cons m rest ih =>
      rw [diagnose_cons, List.append_eq_nil_iff] at h
      simp only [List.mem_cons] at ht
      by_cases hm : m = .read t ∨ m = .opened t
      · by_cases hl : isLibrary t
        · exact Or.inl hl
        · rcases hm with rfl | rfl
          · have hundefined : undefined inputs assigned t = [] := by
              simpa [Mention.problems, hl] using h.1
            rcases undefined_eq_nil_iff.mp hundefined with hi | ha
            · exact Or.inr (Or.inl hi)
            · exact Or.inr (Or.inr (mem_assignedAfter.mpr (Or.inl ha)))
          · simp [Mention.problems, hl] at h
      · rw [not_or] at hm
        refine ih h.2 (ht.imp (fun ht => ?_) fun ht => ?_)
        · exact ht.resolve_left fun e => hm.1 e.symm
        · exact ht.resolve_left fun e => hm.2 e.symm

end Pixelwise.Syntax
