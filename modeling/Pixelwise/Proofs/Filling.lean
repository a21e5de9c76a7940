/-
Filling — which names a run has assigned, and what the channels show of them.

Code runs straight on, so a run that succeeds has executed every binding that
stands in it, whatever the values were (`names_assignments`).  The bindings
in the code of a program are those of its assignments (`set_mem_code`), and
these stand behind the names before its assignment signs.  So the source alone
decides which channels are filled; what fills them is the last value that the
run assigned.

Main statement: `locals_decided`.
-/
import Mathlib.Data.List.Forall2
import Pixelwise.Engine.Session
import Pixelwise.NameTable.Order
import Pixelwise.Proofs.Assigning
import Pixelwise.Proofs.Executing

namespace Pixelwise

/-- The name that an instruction binds, if it binds one. -/
def Instruction.target? : Instruction → Option String
  | .set name => some name
  | _ => none

namespace NameTable

variable {α : Type}

/-- Give names their values, one after another. -/
def insertAll (t : NameTable α) (entries : List (String × α)) : NameTable α :=
  entries.foldl (fun t e => t.insert e.1 e.2) t

theorem Ordered.insertAll {t : NameTable α} (h : t.Ordered) (entries : List (String × α)) :
    (t.insertAll entries).Ordered := by
  induction entries generalizing t with
  | nil => exact h
  | cons e rest ih => exact ih (h.insert e.1 e.2)

/-- A name has the value that it was given last. -/
theorem get?_insertAll (t : NameTable α) (entries : List (String × α)) (name : String) :
    (t.insertAll entries).get? name = (entries.reverse.lookup name).or (t.get? name) := by
  induction entries generalizing t with
  | nil => rfl
  | cons e rest ih =>
      obtain ⟨n, value⟩ := e
      rw [insertAll, List.foldl_cons, ← insertAll, ih, get?_insert, List.reverse_cons,
        List.lookup_append, Option.or_assoc]
      by_cases h : n = name
      · simp [h]
      · have hne : (name == n) = false := by simpa using Ne.symm h
        simp [List.lookup_cons, h, hne]

end NameTable

namespace Machine

variable {σ : Type}

/-! ## What a run assigns -/

/-- The binding that an instruction makes, if it makes one. -/
def assigned (s : State σ) : Instruction → List (String × Float)
  | .set name =>
    match s.stack with
    | .number x :: _ => [(name, x)]
    | _ => []
  | _ => []

/-- The names that a run of code assigns, in order and each with its value,
those of a run that fails included. -/
def assignments (env : Environment σ) (division : DivisionPolicy) (index : Nat) (s : State σ) :
    List Instruction → List (String × Float)
  | [] => []
  | i :: rest =>
    match execute env division index s i with
    | .ok t => assigned s i ++ assignments env division index t rest
    | .error _ => []

variable {env : Environment σ} {division : DivisionPolicy} {index : Nat} {s t : State σ}

/-- An instruction binds the name that it is there for, and no other. -/
theorem execute_assigned {i : Instruction} (h : execute env division index s i = .ok t) :
    (assigned s i).map Prod.fst = i.target?.toList ∧
      t.bindings.locals = s.bindings.locals.insertAll (assigned s i) := by
  cases i with
  | constant value =>
      cases h
      exact ⟨rfl, rfl⟩
  | get name =>
      obtain ⟨p, -, h⟩ := exists_of_bind h
      cases h
      exact ⟨rfl, rfl⟩
  | set name =>
      obtain ⟨p, hp, h⟩ := exists_of_bind h
      cases h
      rw [assigned, eq_of_popNumber hp]
      exact ⟨rfl, rfl⟩
  | call argc =>
      obtain ⟨_, _, _, _, _, _, _, _, rfl⟩ := exists_of_call h
      exact ⟨rfl, rfl⟩
  | pop =>
      obtain ⟨⟨v, rest⟩, -, h⟩ := exists_of_bind h
      cases h
      cases v <;> exact ⟨rfl, rfl⟩
  | unary op =>
      obtain ⟨p, -, h⟩ := exists_of_bind h
      cases h
      exact ⟨rfl, rfl⟩
  | binary op =>
      obtain ⟨p, -, h⟩ := exists_of_bind h
      obtain ⟨q, -, h⟩ := exists_of_bind h
      obtain ⟨x, -, h⟩ := exists_of_bind h
      cases h
      exact ⟨rfl, rfl⟩

/-- Code that is executed to its end has bound all the names that stand in
it. -/
theorem executeAll_assignments {code : List Instruction}
    (h : executeAll env division index s code = .ok t) :
    (assignments env division index s code).map Prod.fst = code.filterMap Instruction.target? ∧
      t.bindings.locals = s.bindings.locals.insertAll (assignments env division index s code) := by
  induction code generalizing s with
  | nil =>
      cases h
      exact ⟨rfl, rfl⟩
  | cons i rest ih =>
      rw [executeAll, List.foldlM_cons] at h
      obtain ⟨u, hu, hrest⟩ := exists_of_bind h
      obtain ⟨hname, hlocals⟩ := execute_assigned hu
      obtain ⟨hnames, hall⟩ := ih hrest
      rw [assignments, hu]
      refine ⟨?_, ?_⟩
      · rw [List.map_append, hname, hnames]
        cases h : i.target? <;> simp [h]
      · rw [hall, hlocals, NameTable.insertAll, NameTable.insertAll, NameTable.insertAll,
          List.foldl_append]

end Machine

namespace Syntax

/-! ## What the code of a program binds -/

theorem set_notMem_operator (op : Operator) (name : String) : .set name ∉ op.code := by
  rw [Operator.code]
  split <;> simp

mutual

/-- The code of an expression binds the names that the expression assigns. -/
theorem set_mem_code (name : String) :
    ∀ e : Expr, .set name ∈ e.code.map Prod.fst ↔ Assigns e.mentions name
  | .number _ | .name _ => by simp [Expr.code, Expr.mentions, Assigns]
  | .group inner _ => set_mem_code name inner
  | .call callee args closing => by
      have hargs := set_mem_codeAll name args
      rw [Expr.mentions, assigns_append, assigns_cons, ← hargs]
      simp [Expr.code, assigns_cons, not_assigns_nil]
  | .unary op operand => by
      rw [Expr.mentions, ← set_mem_code name operand]
      simp [Expr.code]
  | .binary op left right => by
      rw [Expr.mentions, assigns_append, ← set_mem_code name left, ← set_mem_code name right,
        Expr.code, List.map_append, List.map_append, List.mem_append, List.mem_append]
      have hop : .set name ∉ (op.code.map fun i => (i, right.last.line)).map Prod.fst := by
        simpa using set_notMem_operator op name
      simp only [operatorCode_eq, hop, or_false]
  | .assign target value => by
      rw [Expr.mentions, assigns_append, assigns_cons, ← set_mem_code name value]
      simp [Expr.code, assigns_cons, not_assigns_nil, eq_comm]

theorem set_mem_codeAll (name : String) :
    ∀ es : List Expr, .set name ∈ (codeAll es).map Prod.fst ↔ Assigns (mentionsAll es) name
  | [] => by simp [codeAll, mentionsAll, not_assigns_nil]
  | e :: es => by
      rw [mentionsAll, assigns_append, ← set_mem_code name e, ← set_mem_codeAll name es, codeAll,
        List.map_append, List.mem_append]

end

theorem set_mem_program (name : String) (program : List Statement) :
    .set name ∈ (code program).map Prod.fst ↔ Assigns (mentions program) name := by
  induction program with
  | nil => simp [code, mentions, not_assigns_nil]
  | cons p rest ih =>
      have hmentions : mentions (p :: rest) = p.value.mentions ++ mentions rest := rfl
      have hcode : code (p :: rest) = p.value.code ++ [(.pop, p.semicolon.line)] ++ code rest := rfl
      rw [hmentions, hcode, assigns_append, ← ih, ← set_mem_code]
      simp

/-- The code of a program binds the names before its assignment signs. -/
theorem mem_targets {ts : List Token} {program : List Statement} (h : DerivesProgram ts program)
    (name : String) :
    name ∈ (Chunk.ofEmitted (code program)).instructions.filterMap Instruction.target? ↔
      name ∈ assignees ts := by
  have htarget : ∀ i : Instruction, i.target? = some name ↔ i = .set name := by
    intro i
    cases i <;> simp [Instruction.target?]
  rw [h.mem_assignees, ← set_mem_program, List.mem_filterMap]
  simp only [htarget, exists_eq_right]
  rfl

end Syntax

/-! ## Channels -/

/-- What a channel shows where these names are assigned, and these assignments
were made: the last value of its name, brought into its range, or its default
as it is. -/
def Channel.Shows (names : List String) (made : List (String × Float)) (channel : Channel)
    (entry : String × Float) : Prop :=
  entry.1 = channel.name ∧
    if channel.name ∈ names then
      ∃ x, made.reverse.lookup channel.name = some x ∧ entry.2 = channel.kind.apply x
    else entry.2 = channel.default

/-- The bindings that were made are those of the names, and each name has the
value that it was given last. -/
structure Bindings.Made (names : List String) (made : List (String × Float))
    (bindings : Bindings) : Prop where
  mem_names : ∀ name, name ∈ bindings.locals.names ↔ name ∈ names
  get? : ∀ name, bindings.get? name = made.reverse.lookup name

/-- The entries of a layout are those of its channels, in order. -/
theorem Bindings.Made.shows {names : List String} {made : List (String × Float)}
    {bindings : Bindings} (h : bindings.Made names made) (layout : Layout) :
    List.Forall₂ (Channel.Shows names made) layout.channels (layout.extract bindings).values := by
  rw [Layout.extract, List.forall₂_map_right_iff, List.forall₂_same]
  intro channel _
  refine ⟨rfl, ?_⟩
  have hmem := h.mem_names channel.name
  rw [NameTable.mem_names_iff, ← Bindings.get?] at hmem
  rw [Channel.read]
  split
  · rename_i hname
    obtain ⟨x, hx⟩ := Option.isSome_iff_exists.mp (hmem.mpr hname)
    rw [← h.get?, hx]
    exact ⟨x, rfl, rfl⟩
  · rename_i hname
    rw [Option.not_isSome_iff_eq_none.mp (mt hmem.mp hname)]
    rfl

variable {σ : Type}

open Syntax Machine

theorem made_of_run {engine : Engine σ} {source : String} {program : Program σ}
    (h : engine.compile source = .ok program) {division : DivisionPolicy} {index : Nat}
    {generator : Generator} {host : σ} {bindings : Bindings}
    (hrun : (Machine.run engine.environment division index program.chunk generator host).result =
      .ok bindings) :
    bindings.Made (assignees (Token.scan source))
        (assignments engine.environment division index ⟨[], .empty, generator, host⟩
          program.chunk.instructions) ∧
      bindings.locals.Ordered := by
  obtain ⟨chunk, hchunk, rfl⟩ := Engine.exists_of_compile h
  obtain ⟨tree, htree, -, rfl⟩ := Compiler.compileAfter_eq_ok_iff.mp hchunk
  obtain ⟨t, ht, rfl⟩ := bindings_of_runFrom hrun
  obtain ⟨hnames, hlocals⟩ := executeAll_assignments ht
  have hget : ∀ name, t.bindings.get? name = (assignments engine.environment division index
      ⟨[], .empty, generator, host⟩ (Chunk.ofEmitted (code tree)).instructions).reverse.lookup
        name := fun name => by
    rw [Bindings.get?, hlocals, NameTable.get?_insertAll]
    exact Option.or_none
  refine ⟨⟨fun name => ?_, hget⟩, ?_⟩
  · rw [NameTable.mem_names_iff, ← Bindings.get?, hget, ← mem_targets htree, ← hnames]
    simp
  · rw [hlocals]
    exact NameTable.ordered_empty.insertAll _

/-- An evaluation of a program that succeeds shows what its run has left. -/
theorem Program.exists_of_evaluate {program : Program σ} {index : Nat} {host : σ}
    {outputs : Outputs} (h : (program.evaluate index host).1 = .ok outputs) :
    ∃ bindings, (program.run program.generator index host).result = .ok bindings ∧
      outputs = program.engine.layout.extract bindings := by
  have heval : (program.evaluate index host).1 =
      program.outputs (program.run program.generator index host).result := rfl
  rw [heval] at h
  cases hrun : (program.run program.generator index host).result with
  | ok bindings =>
      rw [hrun] at h
      exact ⟨bindings, rfl, (Except.ok.inj h).symm⟩
  | error failure =>
      rw [hrun] at h
      cases h

theorem Session.exists_of_evaluate {session : Session σ} {index : Nat} {host : σ}
    {outputs : Outputs} (h : (session.evaluate index host).1 = .ok outputs) :
    ∃ bindings, (session.program.run session.generator index host).result = .ok bindings ∧
      outputs = session.program.engine.layout.extract bindings := by
  rw [Session.evaluate] at h
  split at h
  · cases h
  · split at h
    · rename_i bindings _ _ hrun
      exact ⟨bindings, by rw [hrun], (Except.ok.inj h).symm⟩
    · cases h

/-- Which names a successful run has assigned is decided by the source alone:
they are those right before its assignment signs, whatever the policy, the
index, the generator and the host are.  So every channel of a layout that has
such a name shows the last value assigned to it, and the others show their
defaults, in evaluations of the program, wherever its generator stands, and of
its sessions. -/
theorem locals_decided {engine : Engine σ} {source : String} {program : Program σ}
    (h : engine.compile source = .ok program) :
    let names := assignees (Token.scan source)
    let made := fun division index generator host =>
      assignments engine.environment division index ⟨[], .empty, generator, host⟩
        program.chunk.instructions
    (∀ division index generator host bindings,
      (Machine.run engine.environment division index program.chunk generator host).result =
        .ok bindings →
      (∀ name, name ∈ bindings.locals.names ↔ name ∈ names) ∧
        bindings.locals.names.Pairwise (· < ·) ∧
        ∀ layout : Layout, List.Forall₂ (Channel.Shows names (made division index generator host))
          layout.channels (layout.extract bindings).values) ∧
    (∀ generator index host outputs,
      (Program.evaluate { program with generator } index host).1 = .ok outputs →
      List.Forall₂ (Channel.Shows names (made engine.division index generator host))
        engine.layout.channels outputs.values) ∧
    ∀ own generator halted index host outputs,
      (Session.evaluate ⟨{ program with generator := own }, generator, halted⟩ index host).1 =
        .ok outputs →
      List.Forall₂ (Channel.Shows names (made engine.division index generator host))
        engine.layout.channels outputs.values := by
  have hengine : program.engine = engine := by
    obtain ⟨chunk, -, rfl⟩ := Engine.exists_of_compile h
    rfl
  subst hengine
  intro names made
  refine ⟨fun division index generator host bindings hrun => ?_,
    fun generator index host outputs heval => ?_,
    fun own generator halted index host outputs heval => ?_⟩
  · obtain ⟨hmade, hordered⟩ := made_of_run h hrun
    exact ⟨hmade.mem_names, List.pairwise_map.mpr hordered, hmade.shows⟩
  · obtain ⟨bindings, hrun, rfl⟩ := Program.exists_of_evaluate heval
    exact (made_of_run h hrun).1.shows _
  · obtain ⟨bindings, hrun, rfl⟩ := Session.exists_of_evaluate heval
    exact (made_of_run h hrun).1.shows _

/-- A name that is assigned inside a value for another: the hue is filled, and
the channels that are not assigned show their defaults. -/
theorem locals_decided_hue :
    let engine : Engine Unit := ⟨.empty, .zero, 7, .pixel⟩
    let source := "h = (u = 2) + 400;"
    assignees (Token.scan source) = ["h", "u"] ∧
      ∃ program, engine.compile source = .ok program ∧
        (program.evaluate 0 ()).1.toOption =
          some ⟨[("x'", 0), ("y'", 0), ("h", 42), ("s", 1), ("l", 0.5), ("a", 1)]⟩ ∧
        ∀ generator index host outputs,
          (Program.evaluate { program with generator } index host).1 = .ok outputs →
          List.Forall₂
            (Channel.Shows (assignees (Token.scan source))
              (assignments engine.environment engine.division index
                ⟨[], .empty, generator, host⟩ program.chunk.instructions))
            engine.layout.channels outputs.values := by
  intro engine source
  have hshown : (engine.compile source).toOption.map (fun p => (p.evaluate 0 ()).1.toOption) =
      some (some ⟨[("x'", 0), ("y'", 0), ("h", 42), ("s", 1), ("l", 0.5), ("a", 1)]⟩) := by
    decide +kernel
  refine ⟨by decide +kernel, ?_⟩
  cases h : engine.compile source with
  | ok program =>
      rw [h] at hshown
      exact ⟨program, rfl, Option.some.inj hshown, (locals_decided h).2.1⟩
  | error e =>
      rw [h] at hshown
      cases hshown

end Pixelwise
