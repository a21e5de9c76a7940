/-
The language — which sources compile, and to what.

A source compiles exactly if its tokens make up a program and nothing is
wrong with its names, and then to the code of that program
(`compileAfter_eq_ok_iff`).  The grammar is unambiguous, so there is only
one such program.

Main statement: `compile_eq_ok_iff`.
-/
import Pixelwise.Proofs.Numerals
import Pixelwise.Proofs.Rooming
import Pixelwise.Proofs.Trees

namespace Pixelwise.Syntax

variable {inputs : List String}

/-! ## What trees are made of -/

theorem arity_le (f : Builtin) : f.arity ≤ 3 := by
  cases f <;> decide

mutual

/-- The tokens of an expression are tokens of the language, and no
semicolons. -/
theorem Derives.language : ∀ {level : Precedence} {ts : List Token} {e : Expr},
    Derives level ts e → ∀ t ∈ ts, t.kind.isUnexpected = false ∧ t.kind ≠ .semicolon
  | _, _, _, .number h => by simp [h, Token.Kind.isUnexpected]
  | _, _, _, .name h => by simp [h, Token.Kind.isUnexpected]
  | _, _, _, .group ho hi hc => by
      intro t ht
      simp only [List.mem_append, List.mem_cons, List.not_mem_nil, or_false] at ht
      rcases ht with (rfl | ht) | rfl
      · simp [ho, Token.Kind.isUnexpected]
      · exact hi.language t ht
      · simp [hc, Token.Kind.isUnexpected]
  | _, _, _, .call hf ho ha hc => by
      intro t ht
      simp only [List.mem_append, List.mem_cons, List.not_mem_nil, or_false] at ht
      rcases ht with (rfl | rfl | ht) | rfl
      · simp [hf, Token.Kind.isUnexpected]
      · simp [ho, Token.Kind.isUnexpected]
      · exact ha.language t ht
      · simp [hc, Token.Kind.isUnexpected]
  | _, _, _, .unary hs hi => by
      intro t ht
      rcases List.mem_cons.mp ht with rfl | ht
      · have ho := mem_unarySigns_iff.mp hs
        cases hk : t.kind <;> simp_all [Token.Kind.isUnexpected, Token.Kind.opening]
      · exact hi.language t ht
  | _, _, _, .binary hs hl hr => by
      intro t ht
      rcases List.mem_append.mp ht with ht | ht
      · exact hl.language t ht
      · rcases List.mem_cons.mp ht with rfl | ht
        · have ho := (mem_signs_iff.mp hs).1
          cases hk : t.kind <;> simp_all [Token.Kind.isUnexpected, Token.Kind.operator]
        · exact hr.language t ht
  | _, _, _, .tighter hd => hd.language
  | _, _, _, .assign hn hs hd => by
      intro t ht
      simp only [List.mem_cons] at ht
      rcases ht with rfl | rfl | ht
      · simp [hn, Token.Kind.isUnexpected]
      · simp [hs, Token.Kind.isUnexpected]
      · exact hd.language t ht

theorem DerivesArgs.language : ∀ {ts : List Token} {es : List Expr},
    DerivesArgs ts es → ∀ t ∈ ts, t.kind.isUnexpected = false ∧ t.kind ≠ .semicolon
  | _, _, .none => by simp
  | _, _, .one hd => hd.language
  | _, _, .more hd hk ha => by
      intro t ht
      rcases List.mem_append.mp ht with ht | ht
      · exact hd.language t ht
      · rcases List.mem_cons.mp ht with rfl | ht
        · simp [hk, Token.Kind.isUnexpected]
        · exact ha.language t ht

end

theorem DerivesProgram.language {ts : List Token} {program : List Statement}
    (h : DerivesProgram ts program) : ∀ t ∈ ts, t.kind.isUnexpected = false := by
  induction h with
  | nil => simp
  | cons hd hk _ ih =>
      intro t ht
      rcases List.mem_append.mp ht with ht | ht
      · exact (hd.language t ht).1
      · rcases List.mem_cons.mp ht with rfl | ht
        · simp [hk, Token.Kind.isUnexpected]
        · exact ih t ht

/-- The last token of an expression is one of its tokens. -/
theorem Derives.last_mem :
    ∀ {level : Precedence} {ts : List Token} {e : Expr}, Derives level ts e → e.last ∈ ts
  | _, _, _, .number _ | _, _, _, .name _ => by simp [Expr.last]
  | _, _, _, .group _ _ _ | _, _, _, .call _ _ _ _ => by simp [Expr.last]
  | _, _, _, .unary _ hd => List.mem_cons_of_mem _ hd.last_mem
  | _, _, _, .binary _ _ hr => List.mem_append_right _ (List.mem_cons_of_mem _ hr.last_mem)
  | _, _, _, .tighter hd => hd.last_mem
  | _, _, _, .assign _ _ hd => List.mem_cons_of_mem _ (List.mem_cons_of_mem _ hd.last_mem)

mutual

/-- A call with nothing wrong has as many arguments as its function takes,
and that is never too many. -/
theorem narrow_of_diagnose :
    ∀ (e : Expr) (assigned : List String), diagnose inputs assigned e.mentions = [] →
      e.Narrow Compiler.maxArguments
  | .number _, _, _ => trivial
  | .name _, _, _ => trivial
  | .group inner _, _, h => narrow_of_diagnose inner _ h
  | .call callee args _, assigned, h => by
      simp only [Expr.mentions, List.cons_append, diagnose_cons, diagnose_append, diagnose_nil,
        List.append_nil, List.append_eq_nil_iff] at h
      obtain ⟨ho, hargs, hc⟩ := h
      refine ⟨?_, allNarrow_of_diagnose args _ hargs⟩
      have hl : isLibrary callee := by
        by_cases hl : isLibrary callee
        · exact hl
        · simp [Mention.problems, hl] at ho
      obtain ⟨f, hf⟩ := Option.isSome_iff_exists.mp hl
      have hn : args.length = f.arity := by simpa [Mention.problems, hf] using hc
      rw [hn]
      exact Nat.le_trans (arity_le f) (by decide)
  | .unary _ operand, _, h => narrow_of_diagnose operand _ h
  | .binary _ left right, _, h => by
      simp only [Expr.mentions, diagnose_append, List.append_eq_nil_iff] at h
      exact ⟨narrow_of_diagnose left _ h.1, narrow_of_diagnose right _ h.2⟩
  | .assign _ value, _, h => by
      simp only [Expr.mentions, List.cons_append, diagnose_cons, diagnose_append,
        List.append_eq_nil_iff] at h
      exact narrow_of_diagnose value _ h.2.1

theorem allNarrow_of_diagnose :
    ∀ (es : List Expr) (assigned : List String),
      diagnose inputs assigned (mentionsAll es) = [] → AllNarrow Compiler.maxArguments es
  | [], _, _ => trivial
  | e :: es, _, h => by
      simp only [mentionsAll, diagnose_append, List.append_eq_nil_iff] at h
      exact ⟨narrow_of_diagnose e _ h.1, allNarrow_of_diagnose es _ h.2⟩

end

theorem narrow_of_mentions {assigned : List String} {program : List Statement}
    (h : diagnose inputs assigned (mentions program) = []) :
    ∀ p ∈ program, p.value.Narrow Compiler.maxArguments := by
  induction program generalizing assigned with
  | nil => simp
  | cons p rest ih =>
      simp only [mentions, List.flatMap_cons, diagnose_append, List.append_eq_nil_iff] at h
      intro q hq
      rcases List.mem_cons.mp hq with rfl | hq
      · exact narrow_of_diagnose q.value _ h.1
      · exact ih h.2 q hq

end Pixelwise.Syntax

namespace Pixelwise.Compiler

open Syntax

variable {inputs : List String}

/-! ## One statement -/

theorem Stepwise.statement {R : State → State → Prop} (hR : Stepwise R) (inputs : List String)
    (s : State) : R s (statement inputs s) :=
  hR.trans (hR.trans ((reads_expression .assignment s).keeps hR) (hR.expect _ _)) (hR.emit _ _)

theorem statement_goes (inputs : List String) (s : State) : Goes s (statement inputs s) :=
  Goes.stepwise.statement inputs s

/-- A statement that ends calm was a tree and a semicolon. -/
theorem statement_calm {s : State} (hr : (statement inputs s).panicking = false)
    (hread : Readable s.pending) :
    ∃ e semicolon rest, Climbs .assignment s.pending e (semicolon :: rest) ∧
      semicolon.kind = .semicolon ∧ Settled rest ∧
      statement inputs s =
        s.after inputs e.mentions (Statement.code ⟨e, semicolon⟩) semicolon rest := by
  have he := (Goes.emit _ _).calm hr
  obtain ⟨semicolon, rest, hp, hk, hrest, hexp⟩ := State.expect_calm inputs he
  obtain ⟨e, mid, hc, -, hr₁⟩ :=
    (reads_expression .assignment s).builds ((Goes.expect _ _).calm he) hread
  rw [hr₁, State.after_pending] at hp
  subst hp
  refine ⟨e, semicolon, rest, hc, hk, hrest, ?_⟩
  rw [statement, hexp, hr₁, State.emit_eq_after _ inputs]
  simp [Statement.code]

/-- A tree and a semicolon are read as such. -/
theorem statement_eq_after (inputs : List String) {s : State} {e : Expr} {semicolon : Token}
    {rest : List Token}
    (hc : Climbs .assignment s.pending e (semicolon :: rest)) (hk : semicolon.kind = .semicolon)
    (hs : s.panicking = false) (hread : Readable s.pending) (hn : e.Narrow maxArguments)
    (hr : Settled rest) :
    statement inputs s =
      s.after inputs e.mentions (Statement.code ⟨e, semicolon⟩) semicolon rest := by
  have hexp := hc.expression_eq inputs s rfl hs hread hn (settled_of_kind hk rfl)
    fun _ => by simp [hk]
  rw [statement, hexp, State.expect_eq_after inputs (State.after_pending ..) hk hr,
    State.emit_eq_after _ inputs]
  simp [Statement.code]

/-! ## All statements -/

theorem State.recoverIfPanicking_of_calm {s : State} (h : s.panicking = false) :
    s.recoverIfPanicking = s :=
  if_neg (by simp [h])

theorem skipStatement_goes (s : State) : Goes s s.skipStatement :=
  Goes.stepwise.skipStatement s

theorem recoverIfPanicking_diagnostics (s : State) :
    ∃ ds, s.recoverIfPanicking.diagnostics = s.diagnostics ++ ds := by
  rw [State.recoverIfPanicking]
  split
  · exact (skipStatement_goes { s with panicking := false }).diagnostics
  · exact ⟨#[], by simp⟩

/-- No diagnostic is ever withdrawn. -/
theorem statements_diagnostics (inputs : List String) (s : State) :
    ∃ ds, (statements inputs s).diagnostics = s.diagnostics ++ ds := by
  fun_induction statements inputs s with
  | case1 s => exact ⟨#[], by simp⟩
  | case2 s _ ih =>
      obtain ⟨ds, hds⟩ := (statement_goes inputs s).diagnostics
      obtain ⟨es, hes⟩ := recoverIfPanicking_diagnostics (statement inputs s)
      obtain ⟨fs, hfs⟩ := ih
      exact ⟨ds ++ es ++ fs, by rw [hfs, hes, hds]; simp only [Array.append_assoc]⟩

/-- Statements that are read without a diagnostic are a program with nothing
wrong. -/
theorem statements_quiet (inputs : List String) (s : State) (hs : s.panicking = false)
    (hread : Readable s.pending)
    (hq : (statements inputs s).diagnostics = s.diagnostics) :
    ∃ program last, DerivesProgram s.pending program ∧
      diagnose inputs s.assigned (mentions program) = [] ∧
      statements inputs s = s.after inputs (mentions program) (code program) last [] := by
  fun_induction statements inputs s with
  | case1 s hp =>
      refine ⟨[], s.previous, hp ▸ .nil, rfl, ?_⟩
      rw [← hp]
      exact s.eq_after inputs
  | case2 s _ ih =>
      obtain ⟨ds, hds⟩ := (statement_goes inputs s).diagnostics
      obtain ⟨es, hes⟩ := recoverIfPanicking_diagnostics (statement inputs s)
      obtain ⟨fs, hfs⟩ := statements_diagnostics inputs (statement inputs s).recoverIfPanicking
      have hempty : ds = #[] ∧ es = #[] ∧ fs = #[] := by
        rw [hfs, hes, hds] at hq
        simpa [Array.append_assoc] using hq
      obtain ⟨rfl, rfl, rfl⟩ := hempty
      have hcalm : (statement inputs s).panicking = false :=
        ((statement_goes inputs s).loud (by simpa using hds)).trans hs
      obtain ⟨e, semicolon, rest, hc, hk, hrest, hst⟩ := statement_calm hcalm hread
      rw [State.recoverIfPanicking_of_calm hcalm, hst] at ih hfs ⊢
      have hd : diagnose inputs s.assigned e.mentions = [] := by
        rw [hst] at hds
        simpa [State.after] using hds
      obtain ⟨us, hus, hderives⟩ := hc.derives (by decide)
      obtain ⟨program, last, hprogram, hnames, hstatements⟩ :=
        ih hs (hread.suffix (hst ▸ (statement_goes inputs s).pending)) (by simpa using hfs)
      refine ⟨⟨e, semicolon⟩ :: program, last, hus ▸ .cons hderives hk hprogram, ?_, ?_⟩
      · rw [mentions, List.flatMap_cons, diagnose_append, hd]
        exact hnames
      · rw [hstatements]
        simp [mentions, code]

theorem settled_of_program {ts : List Token} {program : List Statement}
    (h : DerivesProgram ts program) : Settled ts := by
  cases h with
  | nil => rfl
  | @cons _ rest _ _ _ hd hk _ =>
      exact (hd.climbs (continues_of_closing rest (Or.inr (Or.inr hk)))).settled

theorem settled_append {ts tail : List Token} (h : Settled ts) (htail : Settled tail) :
    Settled (ts ++ tail) := by
  cases ts with
  | nil => exact htail
  | cons t rest => exact h

/-- A program is read as such, whatever is wrong with its names, and then what
stands behind it. -/
theorem statements_append (inputs : List String) {ts tail : List Token}
    {program : List Statement} (h : DerivesProgram ts program) (htail : Settled tail) (s : State)
    (hp : s.pending = ts ++ tail) (hs : s.panicking = false) (hread : Readable (ts ++ tail))
    (hn : ∀ p ∈ program, p.value.Narrow maxArguments) :
    ∃ last, statements inputs s =
      statements inputs (s.after inputs (mentions program) (code program) last tail) := by
  induction h generalizing s with
  | nil =>
      refine ⟨s.previous, congrArg (statements inputs) ?_⟩
      rw [← show s.pending = tail from hp]
      exact s.eq_after inputs
  | @cons us rest semicolon e program hd hk hrest ih =>
      rw [List.append_assoc, List.cons_append] at hp hread
      have hc := hd.climbs (continues_of_closing (rest ++ tail) (Or.inr (Or.inr hk)))
      have hst := statement_eq_after inputs (hp ▸ hc) hk hs (hp ▸ hread)
        (hn _ List.mem_cons_self) (settled_append (settled_of_program hrest) htail)
      have hreadrest : Readable (rest ++ tail) := hread.suffix
        ((List.suffix_cons semicolon _).trans (List.suffix_append us _))
      obtain ⟨last, hlast⟩ := ih (s.after inputs e.mentions (Statement.code ⟨e, semicolon⟩)
        semicolon (rest ++ tail)) rfl hs hreadrest fun p h => hn p (List.mem_cons_of_mem _ h)
      refine ⟨last, ?_⟩
      have hne : s.pending ≠ [] := by simp [hp]
      rw [statements, dif_neg hne, hst, State.recoverIfPanicking_of_calm (by exact hs), hlast]
      simp [mentions, code]

/-- A program without anything behind it. -/
theorem statements_eq_after (inputs : List String) {ts : List Token} {program : List Statement}
    (h : DerivesProgram ts program) (s : State) (hp : s.pending = ts) (hs : s.panicking = false)
    (hread : Readable ts) (hn : ∀ p ∈ program, p.value.Narrow maxArguments) :
    ∃ last, statements inputs s = s.after inputs (mentions program) (code program) last [] := by
  rw [← ts.append_nil] at hp hread
  have htail : Settled [] := rfl
  obtain ⟨last, hlast⟩ := statements_append inputs h htail s hp hs hread hn
  refine ⟨last, ?_⟩
  rw [hlast, statements.eq_def, dif_pos (State.after_pending ..)]

/-! ## Whole sources -/

theorem readable_source (source : String) : Readable (Token.scan source) :=
  fun _ h hk => readable_scan source h hk

theorem start_of_settled (assigned : List String) {ts : List Token} (h : Settled ts)
    (final : Token) :
    State.start assigned ts final =
      ⟨final, ts, final, false, assigned, #[], #[]⟩ := by
  rw [State.start, State.settle_of_settled h]

theorem settled_of_start {assigned : List String} {ts : List Token} {final : Token}
    (h : (State.start assigned ts final).diagnostics = #[]) : Settled ts := by
  cases ts with
  | nil => rfl
  | cons t rest =>
      rw [settled_cons_iff]
      intro c hc
      rw [State.start, State.settle_of_unexpected rfl hc] at h
      simp at h

/-- A source compiles exactly if it is a program with nothing wrong, and then
to the code of the program. -/
theorem compileAfter_eq_ok_iff {assigned : List String} {source : String} {chunk : Chunk} :
    compileAfter assigned inputs source = .ok chunk ↔
      ∃ program, DerivesProgram (Token.scan source) program ∧
        diagnose inputs assigned (mentions program) = [] ∧
        chunk = Chunk.ofEmitted (code program) := by
  rw [compileAfter, State.result]
  constructor
  · intro h
    split at h
    · rename_i hempty
      rw [Array.isEmpty_iff] at hempty
      obtain ⟨ds, hds⟩ := statements_diagnostics inputs
        (State.start assigned (Token.scan source) (Token.endOf source))
      have hstart : (State.start assigned (Token.scan source) (Token.endOf source)).diagnostics =
          #[] := by
        rw [finish, hds] at hempty
        exact (Array.append_eq_empty_iff.mp hempty).1
      have hs := start_of_settled assigned (settled_of_start hstart) (Token.endOf source)
      obtain ⟨program, last, hprogram, hnames, hfinish⟩ :=
        statements_quiet inputs _ (by rw [hs]) (by rw [hs]; exact readable_source source)
          (hempty.trans hstart.symm)
      rw [hs] at hprogram hnames
      refine ⟨program, hprogram, hnames, ?_⟩
      cases h
      rw [finish, hfinish, hs]
      simp [State.after]
    · cases h
  · rintro ⟨program, hprogram, hnames, rfl⟩
    have hs := start_of_settled assigned (settled_of_program hprogram) (Token.endOf source)
    obtain ⟨last, hlast⟩ := statements_eq_after inputs hprogram
      (State.start assigned (Token.scan source) (Token.endOf source)) (by rw [hs]) (by rw [hs])
      (readable_source source) (narrow_of_mentions hnames)
    rw [finish, hlast, hs]
    simp [State.after, hnames]

end Pixelwise.Compiler

namespace Pixelwise

open Syntax

/-! ## The language -/

/-- A chunk is known by its code, the lines of that, and its room. -/
theorem Chunk.eq_ofEmitted_iff {chunk : Chunk} {program : List Statement} :
    chunk = Chunk.ofEmitted (code program) ↔
      chunk.instructions = (code program).map Prod.fst ∧
        chunk.lines = (code program).map Prod.snd ∧ chunk.maxStackSize = room program := by
  rw [← peak_program]
  constructor
  · rintro rfl
    exact ⟨rfl, rfl, rfl⟩
  · intro ⟨hinstructions, hlines, hroom⟩
    obtain ⟨instructions, lines, maxStackSize⟩ := chunk
    obtain rfl : instructions = _ := hinstructions
    obtain rfl : lines = _ := hlines
    obtain rfl : maxStackSize = _ := hroom
    rfl

/-- A source compiles exactly if every character of it belongs to a token,
its tokens make up a program, and every name in the program is used as it
may be; the program is then the only one that the tokens make up.  The chunk
has the code of the program, the line of each instruction, and the room that
the program takes on the stack. -/
theorem compile_eq_ok_iff (inputs : List String) (source : String) (chunk : Chunk) :
    compile inputs source = .ok chunk ↔
      (∀ t ∈ Token.scan source, t.kind.isUnexpected = false) ∧
      ∃ program, DerivesProgram (Token.scan source) program ∧
        (∀ other, DerivesProgram (Token.scan source) other → other = program) ∧
        WellNamed inputs (mentions program) ∧
        chunk.instructions = (code program).map Prod.fst ∧
        chunk.lines = (code program).map Prod.snd ∧
        chunk.maxStackSize = room program := by
  have hcompile := @Compiler.compileAfter_eq_ok_iff inputs [] source chunk
  rw [compile, hcompile]
  constructor
  · intro ⟨program, hprogram, hnames, hchunk⟩
    have hunique : ∀ other, DerivesProgram (Token.scan source) other → other = program :=
      fun other h => h.unique hprogram
    exact ⟨hprogram.language, program, hprogram, hunique, diagnose_eq_nil_iff.mp hnames,
      Chunk.eq_ofEmitted_iff.mp hchunk⟩
  · intro ⟨_, program, hprogram, _, hnames, hchunk⟩
    exact ⟨program, hprogram, diagnose_eq_nil_iff.mpr hnames, Chunk.eq_ofEmitted_iff.mpr hchunk⟩

/-- A comparison that takes two instructions, over two lines. -/
theorem compile_eq_ok_iff_at_most :
    compile ["t"] "y = 1 <=\n max(t, 2);" = .ok
      ⟨[.constant 1, .get "max", .get "t", .constant 2, .call 2, .binary .greater, .unary .not,
          .set "y", .get "y", .pop], [1, 2, 2, 2, 2, 2, 2, 2, 2, 2], 4⟩ := by
  let y : Token := ⟨.identifier, "y", 1, ⟨0, 1⟩⟩
  let equal : Token := ⟨.equal, "=", 1, ⟨2, 3⟩⟩
  let one : Token := ⟨.number, "1", 1, ⟨4, 5⟩⟩
  let atMost : Token := ⟨.lessEqual, "<=", 1, ⟨6, 8⟩⟩
  let callee : Token := ⟨.identifier, "max", 2, ⟨10, 13⟩⟩
  let opening : Token := ⟨.leftParen, "(", 2, ⟨13, 14⟩⟩
  let t : Token := ⟨.identifier, "t", 2, ⟨14, 15⟩⟩
  let comma : Token := ⟨.comma, ",", 2, ⟨15, 16⟩⟩
  let two : Token := ⟨.number, "2", 2, ⟨17, 18⟩⟩
  let closing : Token := ⟨.rightParen, ")", 2, ⟨18, 19⟩⟩
  let semicolon : Token := ⟨.semicolon, ";", 2, ⟨19, 20⟩⟩
  let call : Expr := .call callee [.name t, .number two] closing
  let program : List Statement := [⟨.assign y (.binary .lessEqual (.number one) call), semicolon⟩]
  have hscan : Token.scan "y = 1 <=\n max(t, 2);" =
      [y, equal, one, atMost, callee, opening, t, comma, two, closing, semicolon] := by
    decide +kernel
  have hone : Derives .comparison [one] (.number one) :=
    Derives.loosen (.number rfl) (by decide)
  have hargs : DerivesArgs [t, comma, two] [.name t, .number two] :=
    .more (Derives.loosen (.name rfl) (by decide)) rfl
      (.one (Derives.loosen (.number rfl) (by decide)))
  have hcall : Derives .term [callee, opening, t, comma, two, closing] call :=
    Derives.loosen (.call rfl rfl hargs rfl) (by decide)
  have hcompare : Derives .comparison [one, atMost, callee, opening, t, comma, two, closing]
      (.binary .lessEqual (.number one) call) :=
    .binary (by decide) hone hcall
  have hprogram : DerivesProgram (Token.scan "y = 1 <=\n max(t, 2);") program := by
    rw [hscan]
    exact .cons (.assign rfl rfl (hcompare.loosen (by decide))) rfl .nil
  have hnames : WellNamed ["t"] (mentions program) :=
    diagnose_eq_nil_iff.mp (by decide +kernel)
  refine (compile_eq_ok_iff ["t"] _ _).mpr ⟨hprogram.language, program, hprogram, ?_, hnames, ?_⟩
  · exact fun other hother => hother.unique hprogram
  · exact ⟨by decide +kernel, by decide +kernel, by decide +kernel⟩

end Pixelwise
