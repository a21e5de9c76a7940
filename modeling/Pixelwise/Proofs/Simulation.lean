/-
The code of a tree computes what the tree means.

`runLined_code` is the simulation: the code of an expression, whatever code
follows and whatever the stack holds, runs like the code that follows with
the expression's value on the stack, or ends with the expression's failure.
It asks that names are used as what they stand for (`Resolved`), which is
what the compiler checks of them.
-/
import Pixelwise.Machine.Lined
import Pixelwise.Syntax.Evaluate
import Pixelwise.Syntax.Mention

namespace Pixelwise.Syntax

open Machine Arithmetic

variable {σ : Type} {env : Environment σ} {division : DivisionPolicy} {index : Nat}

/-- A mention uses its name as what the machine finds under it: a target
stands for a local, a name without a call for no function, and a callee for
one. -/
def Resolved (env : Environment σ) : Mention → Prop
  | .target t => ¬ isLibrary t ∧ env.get? t.lexeme = none
  | .read t => ¬ isLibrary t
  | .opened t => isLibrary t
  | _ => True

/-! ## Machine states and stores -/

/-- The machine with a stack on top of a store. -/
def Store.under (m : Store σ) (stack : List Value) : Machine.State σ :=
  ⟨stack, m.bindings, m.generator, m.host⟩

/-- Go on after an evaluation, or end with its failure. -/
def andThen {α : Type} (r : Except Failure α × Store σ) (next : α → Store σ → Outcome σ) :
    Outcome σ :=
  match r with
  | (.ok x, m) => next x m
  | (.error e, m) => ⟨.error e, m.generator, m.host⟩

@[simp] theorem andThen_ok {α : Type} (x : α) (m : Store σ) (next : α → Store σ → Outcome σ) :
    andThen (.ok x, m) next = next x m := rfl

@[simp] theorem andThen_error {α : Type} (e : Failure) (m : Store σ)
    (next : α → Store σ → Outcome σ) :
    andThen (.error e, m) next = ⟨.error e, m.generator, m.host⟩ := rfl

/-! ## One instruction -/

theorem isTrue_ofBool (b : Bool) : isTrue (ofBool b) = b := by
  cases b <;> decide

section

variable (m : Store σ) (stack : List Value) (rest : List (Instruction × Nat)) (line : Nat)

theorem runLined_pop (x : Float) :
    runLined env division index (m.under (.number x :: stack)) ((.pop, line) :: rest) =
      runLined env division index
        (Store.under { m with bindings := { m.bindings with last := some x } } stack) rest := rfl

theorem runLined_set (x : Float) (name : String) :
    runLined env division index (m.under (.number x :: stack)) ((.set name, line) :: rest) =
      runLined env division index
        (Store.under { m with bindings := m.bindings.set name x } stack) rest := rfl

/-- A callee is put on the stack. -/
theorem runLined_get_function {t : Token} {f : Builtin} (h : Builtin.ofName? t.lexeme = some f) :
    runLined env division index (m.under stack) ((.get t.lexeme, line) :: rest) =
      runLined env division index (m.under (.function f :: stack)) rest := by
  simp only [runLined, execute, resolve, h]
  rfl

/-- Any other name is looked up as its tree says. -/
theorem runLined_get {t : Token} (h : ¬ isLibrary t) :
    runLined env division index (m.under stack) ((.get t.lexeme, t.line) :: rest) =
      andThen (readName env index t m) fun x m =>
        runLined env division index (m.under (.number x :: stack)) rest := by
  have hf := not_isLibrary_iff.mp h
  simp only [runLined, execute, resolve, hf, Environment.resolve, readName]
  cases env.get? t.lexeme with
  | some input =>
      simp only [Store.under]
      cases input.valueAt? index m.host with
      | some p => rfl
      | none => rfl
  | none =>
      simp only [Store.under]
      cases m.bindings.get? t.lexeme with
      | some x => rfl
      | none => rfl

/-- A local that was just assigned is read back as it is. -/
theorem runLined_get_local {name : String} {x : Float} (hf : Builtin.ofName? name = none)
    (he : env.get? name = none) (hl : m.bindings.get? name = some x) :
    runLined env division index (m.under stack) ((.get name, line) :: rest) =
      runLined env division index (m.under (.number x :: stack)) rest := by
  simp only [runLined, execute, resolve, hf, Environment.resolve, he, Store.under, hl]
  rfl

/-- An operation of the machine computes its value, or fails on its line. -/
theorem runLined_binary (op : BinaryOp) (a b : Float) :
    runLined env division index (m.under (.number b :: .number a :: stack))
        ((.binary op, line) :: rest) =
      match op.evaluate division a b with
      | .ok x => runLined env division index (m.under (.number x :: stack)) rest
      | .error fault => ⟨.error ⟨fault, line⟩, m.generator, m.host⟩ := by
  simp only [runLined, execute, Store.under]
  cases h : op.evaluate division a b with
  | ok x => simp only [popNumber, bind, Except.bind, h]; rfl
  | error fault => simp only [popNumber, bind, Except.bind, h]

theorem evaluate_of_hasDivisor {op : BinaryOp} (h : op.hasDivisor = true) (a b : Float) :
    op.evaluate division a b = divided division b (op.apply a b) := by
  simp only [BinaryOp.evaluate, divided]
  cases division <;> simp [h]

/-- An operator computes its value, or fails on its line. -/
theorem runLined_operator (op : Operator) (a b : Float) :
    runLined env division index (m.under (.number b :: .number a :: stack))
        ((op.code.map fun i => (i, line)) ++ rest) =
      match op.value division a b with
      | .ok x => runLined env division index (m.under (.number x :: stack)) rest
      | .error fault => ⟨.error ⟨fault, line⟩, m.generator, m.host⟩ := by
  have key : ∀ c : Bool, ofBool (!c) = UnaryOp.apply .not (ofBool c) := by
    intro c
    rw [UnaryOp.apply, isTrue_ofBool]
  cases op with
  | divide =>
      refine (runLined_binary m stack rest line .divide a b).trans ?_
      rw [evaluate_of_hasDivisor rfl]
      rfl
  | remainder =>
      refine (runLined_binary m stack rest line .remainder a b).trans ?_
      rw [evaluate_of_hasDivisor rfl]
      rfl
  | notEqual | greaterEqual | lessEqual =>
      simp only [Operator.value, key]
      rfl
  | or | and | equal | greater | less | add | subtract | multiply | power => rfl

end

/-! ## Calls -/

theorem popNumbers_reverse (xs : List Float) (stack : List Value) :
    popNumbers xs.length ((xs.map Value.number).reverse ++ stack) = .ok (xs, stack) := by
  have h := popNumbers_map xs.reverse stack
  rwa [List.length_reverse, List.reverse_reverse, List.map_reverse] at h

/-- A call takes its arguments and its callee off the stack and leaves the
value of the call. -/
theorem runLined_call {callee closing : Token} {f : Builtin}
    (hf : Builtin.ofName? callee.lexeme = some f) (m : Store σ) (xs : List Float)
    (stack : List Value) (rest : List (Instruction × Nat)) :
    runLined env division index
        (m.under ((xs.map Value.number).reverse ++ .function f :: stack))
        ((.call xs.length, closing.line) :: rest) =
      andThen (callName callee closing xs m) fun x m =>
        runLined env division index (m.under (.number x :: stack)) rest := by
  have hcall : Machine.call xs.length
        (m.under ((xs.map Value.number).reverse ++ .function f :: stack)) =
      (f.apply xs m.generator).elim (.error (.arityMismatch f xs.length)) fun p =>
        .ok (Store.under { m with generator := p.2 } (.number p.1 :: stack)) := by
    simp only [Machine.call, Store.under]
    rw [popNumbers_reverse]
    cases h : f.apply xs m.generator <;> simp [bind, Except.bind, popValue, h]
  simp only [runLined, execute, hcall, callName, hf]
  cases f.apply xs m.generator with
  | some p => rfl
  | none => rfl

/-! ## Expressions -/

theorem length_evaluateAll {es : List Expr} {m m' : Store σ} {xs : List Float}
    (h : evaluateAll env division index es m = (.ok xs, m')) : xs.length = es.length := by
  induction es generalizing m xs with
  | nil => simp [evaluateAll] at h; simp [← h.1]
  | cons e rest ih =>
      rw [evaluateAll] at h
      split at h
      · cases h
      · split at h
        · cases h
        · rename_i heq
          cases h
          simp [ih heq]

mutual

/-- The code of an expression runs like what follows it, with the
expression's value on the stack. -/
theorem runLined_code (stack : List Value) (rest : List (Instruction × Nat)) :
    ∀ (e : Expr) (m : Store σ), (∀ n ∈ e.mentions, Resolved env n) →
      runLined env division index (m.under stack) (e.code ++ rest) =
        andThen (e.evaluate env division index m) fun x m =>
          runLined env division index (m.under (.number x :: stack)) rest
  | .number token, m, _ => rfl
  | .name token, m, h => runLined_get m stack rest (h (.read token) (by simp [Expr.mentions]))
  | .group inner _, m, h => runLined_code stack rest inner m h
  | .call callee args closing, m, h => by
      simp only [Expr.mentions, List.mem_append, List.mem_cons] at h
      obtain ⟨f, hf⟩ := Option.isSome_iff_exists.mp (h (.opened callee) (by simp))
      have hargs : ∀ n ∈ mentionsAll args, Resolved env n := fun n hn => h n (by simp [hn])
      simp only [Expr.code, List.append_assoc, List.cons_append, List.nil_append,
        runLined_get_function m stack _ callee.line hf]
      rw [runLined_codeAll _ _ args m hargs, Expr.evaluate]
      cases hxs : evaluateAll env division index args m with
      | mk r m' =>
          cases r with
          | error e => rfl
          | ok xs =>
              rw [andThen_ok, ← length_evaluateAll hxs]
              exact runLined_call hf m' xs stack rest
  | .unary op operand, m, h => by
      rw [Expr.code, List.append_assoc, runLined_code stack _ operand m h, Expr.evaluate]
      cases operand.evaluate env division index m with
      | mk r m' => cases r <;> rfl
  | .binary op left right, m, h => by
      simp only [Expr.mentions, List.mem_append] at h
      rw [Expr.code, List.append_assoc, List.append_assoc,
        runLined_code stack _ left m fun n hn => h n (Or.inl hn), Expr.evaluate]
      cases left.evaluate env division index m with
      | mk r m₁ =>
          cases r with
          | error e => rfl
          | ok a =>
              simp only [andThen_ok]
              rw [runLined_code _ _ right m₁ fun n hn => h n (Or.inr hn)]
              cases right.evaluate env division index m₁ with
              | mk r m₂ =>
                  cases r with
                  | error e => rfl
                  | ok b =>
                      simp only [andThen_ok, operatorCode_eq, runLined_operator]
                      cases op.value division a b <;> rfl
  | .assign target value, m, h => by
      simp only [Expr.mentions, List.mem_append, List.mem_cons] at h
      have ht : Resolved env (.target target) := h _ (by simp)
      rw [Expr.code, List.append_assoc,
        runLined_code stack _ value m fun n hn => h n (by simp [hn]), Expr.evaluate]
      cases value.evaluate env division index m with
      | mk r m' =>
          cases r with
          | error e => rfl
          | ok x =>
              simp only [andThen_ok, List.cons_append, List.nil_append, runLined_set]
              exact runLined_get_local _ _ _ _ (not_isLibrary_iff.mp ht.1) ht.2
                (by simp [Bindings.get?, Bindings.set])

/-- The code of arguments leaves their values on the stack, the last one
topmost. -/
theorem runLined_codeAll (stack : List Value) (rest : List (Instruction × Nat)) :
    ∀ (es : List Expr) (m : Store σ), (∀ n ∈ mentionsAll es, Resolved env n) →
      runLined env division index (m.under stack) (codeAll es ++ rest) =
        andThen (evaluateAll env division index es m) fun xs m =>
          runLined env division index (m.under ((xs.map Value.number).reverse ++ stack)) rest
  | [], m, _ => rfl
  | e :: es, m, h => by
      simp only [mentionsAll, List.mem_append] at h
      rw [codeAll, List.append_assoc, runLined_code stack _ e m fun n hn => h n (Or.inl hn),
        evaluateAll]
      cases e.evaluate env division index m with
      | mk r m₁ =>
          cases r with
          | error e => rfl
          | ok x =>
              simp only [andThen_ok]
              rw [runLined_codeAll _ _ es m₁ fun n hn => h n (Or.inr hn)]
              cases evaluateAll env division index es m₁ with
              | mk r m₂ =>
                  cases r with
                  | error e => rfl
                  | ok xs => simp [List.append_assoc]

end

/-! ## Programs -/

theorem runLined_program {program : List Statement} (m : Store σ)
    (h : ∀ n ∈ mentions program, Resolved env n) :
    runLined env division index (m.under []) (code program) =
      andThen (evaluateStatements env division index program m) fun _ m =>
        ⟨.ok m.bindings, m.generator, m.host⟩ := by
  induction program generalizing m with
  | nil => rfl
  | cons s rest ih =>
      simp only [mentions, List.flatMap_cons, List.mem_append] at h
      simp only [code, List.flatMap_cons, Statement.code, List.append_assoc, List.cons_append,
        List.nil_append]
      rw [runLined_code [] _ s.value m fun n hn => h n (Or.inl hn), evaluateStatements]
      cases s.value.evaluate env division index m with
      | mk r m' =>
          cases r with
          | error e => rfl
          | ok x =>
              simp only [andThen_ok, runLined_pop]
              exact ih _ fun n hn => h n (Or.inr hn)

/-- A chunk that holds the code of a program runs as the program means. -/
theorem run_code {program : List Statement} (h : ∀ n ∈ mentions program, Resolved env n)
    (generator : Generator) (host : σ) :
    run env division index (Chunk.ofEmitted (code program)) generator host =
      evaluate env division index program generator host := by
  rw [run_ofEmitted]
  refine (runLined_program ⟨.empty, generator, host⟩ h).trans ?_
  rw [evaluate]
  cases evaluateStatements env division index program ⟨.empty, generator, host⟩ with
  | mk r m => cases r <;> rfl

end Pixelwise.Syntax
