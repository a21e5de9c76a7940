/-
Reviews and compilations agree.

The compiler builds no tree: it comes upon names while it emits code, and
counts a name as assigned only if programs can assign it.  A review walks
over the tree and counts every target.  The two lists of names differ, but
not on any name that is looked up in them (`Tracks`), and so both find the
same problems in the same order.

Main statement: `compile_eq_review`, that a source which is a program
compiles exactly if its review finds nothing, and is refused with what the
review finds otherwise.
-/
import Pixelwise.Syntax.Review
import Pixelwise.Proofs.Language

namespace Pixelwise.Syntax

variable {inputs : List String}

/-! ## The walk over a tree and the walk over its mentions -/

/-- The review found these problems, and of the names that can be looked up
it knows those assigned. -/
structure Tracks (inputs : List String) (r : Review) (ds : List Diagnostic)
    (assigned : List String) : Prop where
  found : r.found = ds
  complete : ∀ name, Builtin.ofName? name = none → name ∉ inputs →
    (name ∈ r.complete ↔ name ∈ assigned)

namespace Tracks

variable {r : Review} {ds : List Diagnostic} {assigned : List String} {t : Token}

theorem start : Tracks inputs .start [] [] :=
  ⟨rfl, fun _ _ _ => Iff.rfl⟩

theorem note (h : Tracks inputs r ds assigned) (t : Token) (p : Problem) :
    Tracks inputs (r.note t p) (ds ++ [at' p t]) assigned :=
  ⟨by rw [Review.note, h.found]; rfl, h.complete⟩

theorem known (h : Tracks inputs r ds assigned) (hl : ¬ isLibrary t) :
    Tracks inputs (r.known inputs t) (ds ++ undefined inputs assigned t) assigned := by
  have hmem : t.lexeme ∈ inputs ∨ t.lexeme ∈ r.complete ↔
      t.lexeme ∈ inputs ∨ t.lexeme ∈ assigned := by
    by_cases hi : t.lexeme ∈ inputs
    · simp [hi]
    · simp [hi, h.complete _ (not_isLibrary_iff.mp hl) hi]
  rw [Review.known, undefined]
  by_cases hk : t.lexeme ∈ inputs ∨ t.lexeme ∈ assigned
  · rw [if_pos (hmem.mpr hk), if_pos hk, List.append_nil]
    exact h
  · rw [if_neg (mt hmem.mp hk), if_neg hk]
    exact h.note t _

theorem target (h : Tracks inputs r ds assigned) (t : Token) :
    Tracks inputs (r.target inputs t)
      (ds ++ Mention.problems inputs assigned (.target t)) assigned := by
  rw [Review.target, Mention.problems]
  by_cases hl : isLibrary t
  · rw [if_pos (by exact hl), if_pos hl]
    exact h.note t _
  · rw [if_neg (by exact hl), if_neg hl]
    by_cases hi : t.lexeme ∈ inputs
    · rw [if_pos hi, if_pos hi]
      exact h.note t _
    · rw [if_neg hi, if_neg hi, List.append_nil]
      exact h

/-- A target that programs cannot assign is never looked up. -/
theorem completed (h : Tracks inputs r ds assigned) (t : Token) :
    Tracks inputs (r.assigned t.lexeme) ds (Mention.assign inputs assigned (.assigned t)) := by
  refine ⟨h.found, fun name hname hinput => ?_⟩
  rw [Review.assigned, List.mem_cons, h.complete name hname hinput, mem_assign]
  constructor
  · rintro (rfl | hn)
    · exact Or.inr ⟨t, rfl, rfl, not_isLibrary_iff.mpr hname, hinput⟩
    · exact Or.inl hn
  · rintro (hn | ⟨u, hu, rfl, -⟩)
    · exact Or.inr hn
    · cases hu
      exact Or.inl rfl

theorem arity (h : Tracks inputs r ds assigned) {f : Builtin}
    (hf : Builtin.ofName? t.lexeme = some f) (argc : Nat) :
    Tracks inputs (r.arity f t argc)
      (ds ++ Mention.problems inputs assigned (.closed t argc)) assigned := by
  simp only [Review.arity, Mention.problems, hf]
  split
  · rw [List.append_nil]
    exact h
  · exact h.note t _

end Tracks

mutual

/-- A walk over an expression finds what is wrong with its mentions. -/
theorem Expr.review_tracks :
    ∀ (e : Expr) {r : Review} {ds : List Diagnostic} {assigned : List String},
      Tracks inputs r ds assigned →
      Tracks inputs (e.review inputs r) (ds ++ diagnose inputs assigned e.mentions)
        (assignedAfter inputs assigned e.mentions)
  | .number _, _, _, _, h => by simpa [Expr.review, Expr.mentions] using h
  | .name t, r, ds, assigned, h => by
      simp only [Expr.review, Expr.mentions, diagnose_cons, diagnose_nil, assignedAfter_cons,
        assignedAfter_nil, List.append_nil, Mention.problems, Mention.assign]
      by_cases hl : isLibrary t
      · rw [if_pos (by exact hl), if_pos hl]
        exact h.note t _
      · rw [if_neg (by exact hl), if_neg hl]
        exact h.known hl
  | .group inner _, _, _, _, h => inner.review_tracks h
  | .call callee args _, r, ds, assigned, h => by
      simp only [Expr.review, Expr.mentions, List.cons_append, diagnose_cons, diagnose_append,
        diagnose_nil, assignedAfter_cons, assignedAfter_append, assignedAfter_nil,
        List.append_nil, Mention.assign]
      cases hf : Builtin.ofName? callee.lexeme with
      | some f =>
          have hopened : Mention.problems inputs assigned (.opened callee) = [] :=
            if_pos (by simp [isLibrary, hf])
          rw [hopened, List.nil_append, ← List.append_assoc]
          exact (reviewAll_tracks args h).arity hf args.length
      | none =>
          have hl : ¬ isLibrary callee := not_isLibrary_iff.mpr hf
          have hopened : Mention.problems inputs assigned (.opened callee) =
              undefined inputs assigned callee ++ [at' .notCallable callee] := if_neg hl
          have hclosed : ∀ assigned, Mention.problems inputs assigned
              (.closed callee args.length) = [] := fun _ => by simp [Mention.problems, hf]
          rw [hopened, hclosed, List.append_nil, ← List.append_assoc, ← List.append_assoc]
          exact reviewAll_tracks args ((h.known hl).note callee _)
  | .unary _ operand, _, _, _, h => operand.review_tracks h
  | .binary _ left right, _, _, _, h => by
      simp only [Expr.review, Expr.mentions, diagnose_append, assignedAfter_append]
      rw [← List.append_assoc]
      exact right.review_tracks (left.review_tracks h)
  | .assign target value, _, _, _, h => by
      simp only [Expr.review, Expr.mentions, List.cons_append, diagnose_cons, diagnose_append,
        diagnose_nil, assignedAfter_cons, assignedAfter_append, assignedAfter_nil]
      have hvalue := (value.review_tracks (h.target target)).completed target
      simpa [List.append_assoc, Mention.assign, Mention.problems] using hvalue

theorem reviewAll_tracks :
    ∀ (es : List Expr) {r : Review} {ds : List Diagnostic} {assigned : List String},
      Tracks inputs r ds assigned →
      Tracks inputs (reviewAll inputs es r) (ds ++ diagnose inputs assigned (mentionsAll es))
        (assignedAfter inputs assigned (mentionsAll es))
  | [], _, _, _, h => by simpa [reviewAll, mentionsAll] using h
  | e :: rest, _, _, _, h => by
      simp only [reviewAll, mentionsAll, diagnose_append, assignedAfter_append]
      rw [← List.append_assoc]
      exact reviewAll_tracks rest (e.review_tracks h)

end

theorem mentionsAll_values (program : List Statement) :
    mentionsAll (program.map Statement.value) = mentions program := by
  induction program with
  | nil => rfl
  | cons p rest ih => simp [mentionsAll, mentions, ih]

/-- A review finds what is wrong with the mentions of a program. -/
theorem review_eq_diagnose (inputs : List String) (program : List Statement) :
    review inputs program = diagnose inputs [] (mentions program) := by
  have hstart : Tracks inputs .start [] [] := .start
  have h := (reviewAll_tracks (program.map Statement.value) hstart).found
  rwa [List.nil_append, mentionsAll_values] at h

end Pixelwise.Syntax

namespace Pixelwise

open Syntax

/-! ## Sources that are programs -/

/-- A source whose tokens make up a program, with no call of more than 255
arguments, compiles to the code of the program if the review of its names
finds nothing; otherwise it is refused with what the review finds, in the
same order and with nothing else. -/
theorem compile_eq_review {inputs : List String} {source : String} {program : List Statement}
    (h : DerivesProgram (Token.scan source) program)
    (hn : ∀ p ∈ program, p.value.Narrow 255) :
    compile inputs source =
      if review inputs program = [] then .ok (Chunk.ofEmitted (code program))
      else .error (review inputs program) := by
  have hs := Compiler.start_of_settled [] (Compiler.settled_of_program h) (Token.endOf source)
  obtain ⟨last, hlast⟩ := Compiler.statements_eq_after inputs h
    (Compiler.State.start [] (Token.scan source) (Token.endOf source)) (by rw [hs]) (by rw [hs])
    (Compiler.readable_source source) hn
  rw [compile, compileAfter, Compiler.finish, hlast, hs, review_eq_diagnose, Compiler.State.result]
  by_cases hd : diagnose inputs [] (mentions program) = []
  · simp [Compiler.State.after, hd]
  · simp [Compiler.State.after, hd]

/-- An input is assigned, a name is called that is not known, and a function
is passed as an argument. -/
theorem compile_eq_review_refused :
    let s : Token := ⟨.identifier, "s", 1, ⟨0, 1⟩⟩
    let q : Token := ⟨.identifier, "q", 1, ⟨4, 5⟩⟩
    let abs : Token := ⟨.identifier, "abs", 2, ⟨7, 10⟩⟩
    let closing : Token := ⟨.rightParen, ")", 2, ⟨10, 11⟩⟩
    let program : List Statement :=
      [⟨.assign s (.call q [.name abs] closing), ⟨.semicolon, ";", 2, ⟨11, 12⟩⟩⟩]
    DerivesProgram (Token.scan "s = q(\nabs);") program ∧
      (∀ p ∈ program, p.value.Narrow 255) ∧
      compile ["s"] "s = q(\nabs);" =
        .error [⟨.assignToInput "s", 1, ⟨0, 1⟩⟩, ⟨.undefinedName "q", 1, ⟨4, 5⟩⟩,
          ⟨.notCallable, 1, ⟨4, 5⟩⟩, ⟨.functionNotCalled "abs", 2, ⟨7, 10⟩⟩] := by
  intro s q abs closing program
  have hscan : Token.scan "s = q(\nabs);" =
      (s :: ⟨.equal, "=", 1, ⟨2, 3⟩⟩ :: (q :: ⟨.leftParen, "(", 1, ⟨5, 6⟩⟩ :: [abs] ++
        [closing])) ++ ⟨.semicolon, ";", 2, ⟨11, 12⟩⟩ :: [] := by
    with_unfolding_all rfl
  have hprogram : DerivesProgram (Token.scan "s = q(\nabs);") program := by
    have habs : Derives .assignment [abs] (.name abs) := .loosen (.name rfl) (by decide)
    rw [hscan]
    have hcall : Derives .primary (q :: ⟨.leftParen, "(", 1, ⟨5, 6⟩⟩ :: [abs] ++ [closing])
        (.call q [.name abs] closing) := .call rfl rfl (.one habs) rfl
    exact .cons (.assign rfl rfl (hcall.loosen (by decide))) rfl .nil
  have hnarrow : ∀ p ∈ program, p.value.Narrow 255 := by
    intro p hp
    rw [List.mem_singleton.mp hp]
    exact ⟨by decide, trivial, trivial⟩
  refine ⟨hprogram, hnarrow, ?_⟩
  rw [compile_eq_review hprogram hnarrow]
  rfl

end Pixelwise
