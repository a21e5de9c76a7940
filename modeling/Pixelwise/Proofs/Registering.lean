/-
Registering — what an environment holds after any history of registrations.

What a builder holds after a history are the inputs whose registration was not
refused (`mem_registerAll`), each name once (`nodup_registerAll`).  Built in
the order of their names they make a table (`ordered_build`), in which halving
finds what any search finds (`lookup_eq_get?`).

Main statement: `environment_faithful`.  Inputs that are put into their places
one after another come to the environment that is built of them (`ofList_eq`).
-/
import Pixelwise.Environment.Builder
import Pixelwise.NameTable.Order

namespace Pixelwise.Environment

variable {σ : Type}

namespace Builder

variable {b : Builder σ} {history : List (String × Input σ)}

/-! ## One registration -/

/-- Why an input of the name is refused, if it is. -/
def refusal? (b : Builder σ) (name : String) : Option RegistrationError :=
  if (Builtin.ofName? name).isSome then some (.collides name)
  else if name ∈ b.entries.map Prod.fst then some (.twice name)
  else none

/-- What is registered after one more input was accepted or refused. -/
def keep (b : Builder σ) (e : String × Input σ) : Builder σ :=
  if (b.refusal? e.1).isSome then b else ⟨b.entries ++ [e]⟩

theorem register_eq (b : Builder σ) (e : String × Input σ) :
    b.register e.1 e.2 =
      match b.refusal? e.1 with
      | some refusal => .error refusal
      | none => .ok (b.keep e) := by
  have hany : (b.entries.any fun d => d.1 = e.1) = true ↔ e.1 ∈ b.entries.map Prod.fst := by
    simp
  simp only [register, refusal?, keep, Builtin.lookup_eq_ofName?, hany]
  split
  · rfl
  · split <;> rfl

theorem refusal?_eq_none_iff {name : String} :
    b.refusal? name = none ↔
      ¬(Builtin.ofName? name).isSome ∧ name ∉ b.entries.map Prod.fst := by
  unfold refusal?
  split
  · simp [*]
  · split <;> simp [*]

theorem exists_refusal?_iff {name : String} :
    (∃ refusal, b.refusal? name = some refusal) ↔
      (Builtin.ofName? name).isSome ∨ name ∈ b.entries.map Prod.fst := by
  rw [← Option.ne_none_iff_exists', Ne, refusal?_eq_none_iff, ← not_or, Classical.not_not]

/-- The library is asked first. -/
theorem eq_of_refusal? {name : String} {refusal : RegistrationError}
    (h : b.refusal? name = some refusal) :
    refusal = if (Builtin.ofName? name).isSome then .collides name else .twice name := by
  unfold refusal? at h
  split at h
  · rw [if_pos ‹_›]
    exact (Option.some.inj h).symm
  · rw [if_neg ‹_›]
    split at h
    · exact (Option.some.inj h).symm
    · cases h

theorem keep_of_none {e : String × Input σ} (h : b.refusal? e.1 = none) :
    b.keep e = ⟨b.entries ++ [e]⟩ := by
  simp [keep, h]

theorem keep_of_some {e : String × Input σ} {refusal : RegistrationError}
    (h : b.refusal? e.1 = some refusal) : b.keep e = b := by
  simp [keep, h]

/-! ## Many registrations -/

theorem registerAll_cons (b : Builder σ) (e : String × Input σ)
    (rest : List (String × Input σ)) :
    b.registerAll (e :: rest) =
      (b.refusal? e.1 :: ((b.keep e).registerAll rest).1, ((b.keep e).registerAll rest).2) := by
  obtain ⟨name, input⟩ := e
  rw [registerAll, register_eq b (name, input)]
  cases h : b.refusal? name with
  | none => rfl
  | some refusal => simp only [keep_of_some (e := (name, input)) h]

theorem registerAll_append (b : Builder σ) (xs ys : List (String × Input σ)) :
    b.registerAll (xs ++ ys) =
      ((b.registerAll xs).1 ++ ((b.registerAll xs).2.registerAll ys).1,
        ((b.registerAll xs).2.registerAll ys).2) := by
  induction xs generalizing b with
  | nil => rfl
  | cons e rest ih => simp only [List.cons_append, registerAll_cons, ih]

@[simp] theorem length_registerAll (b : Builder σ) (history : List (String × Input σ)) :
    (b.registerAll history).1.length = history.length := by
  induction history generalizing b with
  | nil => rfl
  | cons e rest ih => simp only [registerAll_cons, List.length_cons, ih]

/-- The answers up to a place are those to the registrations up to there. -/
theorem registerAll_take (b : Builder σ) (history : List (String × Input σ)) (i : Nat) :
    (b.registerAll (history.take i)).1 = (b.registerAll history).1.take i := by
  induction history generalizing b i with
  | nil => simp [registerAll]
  | cons e rest ih =>
      cases i with
      | zero => rfl
      | succ i =>
          rw [List.take_succ_cons, registerAll_cons, registerAll_cons, List.take_succ_cons, ih]

/-- An answer depends on what is registered by then. -/
theorem getElem?_registerAll {i : Nat} {e : String × Input σ} (h : history[i]? = some e) :
    (b.registerAll history).1[i]? = some ((b.registerAll (history.take i)).2.refusal? e.1) := by
  induction history generalizing b i with
  | nil => cases h
  | cons d rest ih =>
      rw [registerAll_cons]
      cases i with
      | zero =>
          cases h
          rfl
      | succ i =>
          rw [List.take_succ_cons, registerAll_cons]
          exact ih h

/-- What is registered in the end was there before, or was accepted. -/
theorem mem_registerAll {e : String × Input σ} :
    e ∈ (b.registerAll history).2.entries ↔
      e ∈ b.entries ∨
        ∃ i : Nat, history[i]? = some e ∧ (b.registerAll history).1[i]? = some none := by
  induction history generalizing b with
  | nil => simp [registerAll]
  | cons d rest ih =>
      have hkeep : e ∈ (b.keep d).entries ↔ e ∈ b.entries ∨ (d = e ∧ b.refusal? d.1 = none) := by
        cases h : b.refusal? d.1 with
        | none => simp [keep_of_none h, eq_comm]
        | some refusal => simp [keep_of_some h]
      rw [registerAll_cons, ih, hkeep, or_assoc]
      refine or_congr_right ⟨?_, ?_⟩
      · rintro (⟨rfl, hnone⟩ | ⟨i, hi, hanswer⟩)
        · exact ⟨0, rfl, congrArg some hnone⟩
        · exact ⟨i + 1, hi, hanswer⟩
      · rintro ⟨i, hi, hanswer⟩
        cases i with
        | zero => exact Or.inl ⟨Option.some.inj hi, Option.some.inj hanswer⟩
        | succ i => exact Or.inr ⟨i, hi, hanswer⟩

theorem nodup_keep (h : (b.entries.map Prod.fst).Nodup) (e : String × Input σ) :
    ((b.keep e).entries.map Prod.fst).Nodup := by
  cases hrefusal : b.refusal? e.1 with
  | some refusal => rwa [keep_of_some hrefusal]
  | none =>
      have hnew := (refusal?_eq_none_iff.mp hrefusal).2
      rw [keep_of_none hrefusal, List.map_append, List.nodup_append]
      refine ⟨h, by simp, fun x hx y hy => ?_⟩
      rw [List.mem_singleton.mp hy]
      exact fun heq => hnew (heq ▸ hx)

theorem nodup_registerAll (h : (b.entries.map Prod.fst).Nodup) :
    ((b.registerAll history).2.entries.map Prod.fst).Nodup := by
  induction history generalizing b with
  | nil => exact h
  | cons e rest ih =>
      rw [registerAll_cons]
      exact ih (nodup_keep h e)

/-! ## What is built -/

/-- What is built holds the same inputs in the order of their names. -/
theorem ordered_build (h : (b.entries.map Prod.fst).Nodup) : b.build.inputs.Ordered := by
  have hperm : b.build.inputs.entries.Perm b.entries := List.mergeSort_perm ..
  have htrans : ∀ x y z : String × Input σ, decide (x.1 ≤ y.1) = true →
      decide (y.1 ≤ z.1) = true → decide (x.1 ≤ z.1) = true := fun x y z hxy hyz =>
    decide_eq_true (String.le_trans (of_decide_eq_true hxy) (of_decide_eq_true hyz))
  have htotal : ∀ x y : String × Input σ, (decide (x.1 ≤ y.1) || decide (y.1 ≤ x.1)) = true :=
    fun x y => by simpa using String.le_total x.1 y.1
  have hle : b.build.inputs.entries.Pairwise fun x y => decide (x.1 ≤ y.1) = true :=
    List.pairwise_mergeSort htrans htotal b.entries
  have hne : b.build.inputs.entries.Pairwise fun x y => x.1 ≠ y.1 :=
    List.pairwise_map.mp ((hperm.map Prod.fst).nodup_iff.mpr h)
  refine List.Pairwise.imp₂ (fun x y hle hne => ?_) hle hne
  by_cases hlt : x.1 < y.1
  · exact hlt
  · exact absurd (String.le_antisymm (of_decide_eq_true hle) (String.not_lt.mp hlt)) hne

/-- Registering and then building comes to putting the input into its place in
what was built before. -/
theorem register_build (h : (b.entries.map Prod.fst).Nodup) (e : String × Input σ) :
    b.build.register e.1 e.2 = (b.register e.1 e.2).map build := by
  have hperm : b.build.inputs.entries.Perm b.entries := List.mergeSort_perm ..
  have hmem : (b.build.get? e.1).isSome ↔ e.1 ∈ b.entries.map Prod.fst := by
    rw [get?, ← NameTable.mem_names_iff]
    exact (hperm.map Prod.fst).mem_iff
  rw [register_eq, Environment.register]
  cases hrefusal : b.refusal? e.1 with
  | some refusal =>
      rw [eq_of_refusal? hrefusal]
      rcases exists_refusal?_iff.mp ⟨refusal, hrefusal⟩ with hlibrary | htaken
      · simp only [if_pos hlibrary, Except.map]
      · rw [if_pos (hmem.mpr htaken)]
        split <;> rfl
  | none =>
      obtain ⟨hlibrary, hnew⟩ := refusal?_eq_none_iff.mp hrefusal
      rw [if_neg hlibrary, if_neg (mt hmem.mp hnew)]
      refine congrArg Except.ok (congrArg Environment.mk (congrArg NameTable.mk ?_))
      have hinserted := (ordered_build h).insert e.1 e.2
      have hbuilt := ordered_build (nodup_keep h e)
      have hkept : (b.keep e).build.inputs.entries.Perm (b.entries ++ [e]) := by
        rw [keep_of_none hrefusal]
        exact List.mergeSort_perm ..
      have hsame :
          (b.build.inputs.insert e.1 e.2).entries.Perm (b.keep e).build.inputs.entries := by
        have hfree : e.1 ∉ b.build.inputs.entries.map Prod.fst :=
          mt (hperm.map Prod.fst).mem_iff.mp hnew
        exact (NameTable.insertEntry_perm hfree).trans
          ((hperm.cons e).trans ((List.perm_append_singleton e b.entries).symm.trans hkept.symm))
      exact hsame.eq_of_pairwise (fun x y _ _ hxy hyx => absurd hyx (String.lt_asymm hxy))
        hinserted hbuilt

end Builder

/-- Inputs are put into their places one after another, up to the first refusal,
and make the environment that is built of them. -/
theorem ofList_eq (entries : List (String × Input σ)) :
    ofList entries = Builder.ofList entries := by
  have hfold : ∀ b : Builder σ, (b.entries.map Prod.fst).Nodup →
      entries.foldlM (fun env e => env.register e.1 e.2) b.build =
        (entries.foldlM (fun (b : Builder σ) e => b.register e.1 e.2) b).map Builder.build := by
    induction entries with
    | nil => exact fun b _ => rfl
    | cons e rest ih =>
        intro b h
        rw [List.foldlM_cons, List.foldlM_cons, Builder.register_build h, Builder.register_eq]
        cases b.refusal? e.1 with
        | some refusal => rfl
        | none => exact ih (b.keep e) (Builder.nodup_keep h e)
  have hempty : (Builder.empty : Builder σ).build = empty := by
    rw [Builder.build, Builder.empty, List.mergeSort_nil]
    rfl
  rw [ofList, Builder.ofList, ← hempty]
  exact hfold Builder.empty List.nodup_nil

/-! ## Looking up -/

theorem lookup_eq_get? {env : Environment σ} (h : env.inputs.Ordered) (name : String) :
    env.lookup name = env.get? name := by
  have hordered : Search.Ordered Prod.fst env.inputs.entries.toArray := h
  ext input
  rw [lookup, get?, h.get?_eq_some_iff, Option.map_eq_some_iff]
  constructor
  · rintro ⟨e, he, rfl⟩
    obtain ⟨hmem, rfl⟩ := (Search.find?_eq_some_iff hordered).mp he
    exact List.mem_toArray.mp hmem
  · intro hmem
    have hfound := (Search.find?_eq_some_iff hordered).mpr ⟨List.mem_toArray.mpr hmem, rfl⟩
    exact ⟨(name, input), hfound, rfl⟩

/-! ## Resolving -/

variable {env : Environment σ} {name : String} {index : Nat} {host host' : σ}

theorem resolve_eq_none_iff :
    env.resolve name index host = .ok (none, host') ↔ host' = host ∧ env.get? name = none := by
  unfold resolve
  split
  · simp [*, eq_comm]
  · split <;> simp [*]

theorem resolve_eq_some_iff {value : Float} :
    env.resolve name index host = .ok (some value, host') ↔
      ∃ input, env.get? name = some input ∧ input.valueAt? index host = some (value, host') := by
  unfold resolve
  split
  · simp [*]
  · split <;> simp [*]

/-- A sequence that is too short is the only input without a value. -/
theorem resolve_eq_error_iff {e : OutOfBounds} :
    env.resolve name index host = .error e ↔
      ∃ values, env.get? name = some (.sequence values) ∧ values.size ≤ index ∧
        e = ⟨name, index, values.size⟩ := by
  unfold resolve
  split
  · simp [*]
  · rename_i input hget
    cases input with
    | constant value => simp [hget, Input.valueAt?]
    | computed read => simp [hget, Input.valueAt?]
    | sequence values =>
        simp only [hget, Input.valueAt?, Input.length]
        by_cases hsize : values.size ≤ index
        · simp [hsize, eq_comm]
        · rw [Array.getElem?_eq_getElem (Nat.lt_of_not_le hsize)]
          simp [hsize]

/-! ## Histories -/

/-- The input was accepted under the name, in a history of registrations with
these answers. -/
def Accepted (history : List (String × Input σ)) (answers : List (Option RegistrationError))
    (name : String) (input : Input σ) : Prop :=
  ∃ i : Nat, history[i]? = some (name, input) ∧ answers[i]? = some none

/-- Some input was accepted under the name before place `i`. -/
def TakenBefore (i : Nat) (history : List (String × Input σ))
    (answers : List (Option RegistrationError)) (name : String) : Prop :=
  ∃ j < i, ∃ input, history[j]? = some (name, input) ∧ answers[j]? = some none

/-- The answers to a history of registrations are right, and the environment is
the finite map of the inputs that were accepted. -/
structure Faithful (history : List (String × Input σ))
    (answers : List (Option RegistrationError)) (env : Environment σ) : Prop where
  /-- Names of the library are refused, and names that are taken. -/
  refused : ∀ (i : Nat) name input, history[i]? = some (name, input) →
    ((∃ refusal, answers[i]? = some (some refusal)) ↔
      (Builtin.ofName? name).isSome ∨ TakenBefore i history answers name)
  reason : ∀ (i : Nat) name input refusal, history[i]? = some (name, input) →
    answers[i]? = some (some refusal) →
    refusal = if (Builtin.ofName? name).isSome then .collides name else .twice name
  names_increase : env.names.Pairwise fun a b => bytes a < bytes b
  mem_names : ∀ name, name ∈ env.names ↔ ∃ input, Accepted history answers name input
  lookup : ∀ name input, env.lookup name = some input ↔ Accepted history answers name input
  resolve_none : ∀ name index host host', env.resolve name index host = .ok (none, host') ↔
    host' = host ∧ ¬∃ input, Accepted history answers name input
  resolve_error : ∀ name index host e, env.resolve name index host = .error e ↔
    ∃ values, Accepted history answers name (.sequence values) ∧ values.size ≤ index ∧
      e = ⟨name, index, values.size⟩
  resolve_some : ∀ name index host value host',
    env.resolve name index host = .ok (some value, host') ↔
      ∃ input, Accepted history answers name input ∧
        input.valueAt? index host = some (value, host')

/-- A name is taken if it is among those that are registered by then. -/
theorem takenBefore_iff {history : List (String × Input σ)} {i : Nat} {name : String} :
    TakenBefore i history (Builder.empty.registerAll history).1 name ↔
      name ∈ (Builder.empty.registerAll (history.take i)).2.entries.map Prod.fst := by
  simp only [List.mem_map, Prod.exists, Builder.mem_registerAll, Builder.registerAll_take,
    List.getElem?_take, TakenBefore]
  constructor
  · rintro ⟨j, hj, input, hentry, hanswer⟩
    exact ⟨name, input, Or.inr ⟨j, by rwa [if_pos hj], by rwa [if_pos hj]⟩, rfl⟩
  · rintro ⟨_, input, hmem | ⟨j, hentry, hanswer⟩, rfl⟩
    · cases hmem
    · by_cases hj : j < i
      · rw [if_pos hj] at hentry hanswer
        exact ⟨j, hj, input, hentry, hanswer⟩
      · rw [if_neg hj] at hentry
        cases hentry

/-- After any history of registrations the environment holds exactly the inputs
that were accepted, and an input was refused exactly if its name is a function's
or was accepted before; what is refused changes nothing. -/
theorem environment_faithful (history : List (String × Input σ)) :
    Faithful history (Builder.empty.registerAll history).1
        (Builder.empty.registerAll history).2.build ∧
      ∀ (i : Nat) refusal, (Builder.empty.registerAll history).1[i]? = some (some refusal) →
        (Builder.empty.registerAll (history.take (i + 1))).2 =
          (Builder.empty.registerAll (history.take i)).2 := by
  have hordered : (Builder.empty.registerAll history).2.build.inputs.Ordered :=
    Builder.ordered_build (Builder.nodup_registerAll List.nodup_nil)
  have hget : ∀ name input, (Builder.empty.registerAll history).2.build.get? name = some input ↔
      Accepted history (Builder.empty.registerAll history).1 name input := fun name input => by
    rw [get?, hordered.get?_eq_some_iff, Builder.build, List.mem_mergeSort, Builder.mem_registerAll]
    exact or_iff_right (List.not_mem_nil)
  have hanswer : ∀ {i : Nat} {name input}, history[i]? = some (name, input) →
      (Builder.empty.registerAll history).1[i]? =
        some ((Builder.empty.registerAll (history.take i)).2.refusal? name) :=
    fun h => Builder.getElem?_registerAll h
  refine ⟨⟨?_, ?_, ?_, ?_, ?_, ?_, ?_, ?_⟩, ?_⟩
  · intro i name input h
    rw [hanswer h, takenBefore_iff]
    simp only [Option.some.injEq]
    exact Builder.exists_refusal?_iff
  · intro i name input refusal h hrefusal
    rw [hanswer h] at hrefusal
    exact Builder.eq_of_refusal? (Option.some.inj hrefusal)
  · exact List.pairwise_map.mpr (hordered.imp fun hlt => bytes_lt_iff.mpr hlt)
  · intro name
    rw [names, NameTable.mem_names_iff, Option.isSome_iff_exists]
    exact exists_congr (hget name)
  · intro name input
    rw [lookup_eq_get? hordered, hget]
  · intro name index host host'
    rw [resolve_eq_none_iff, Option.eq_none_iff_forall_ne_some]
    simp only [ne_eq, hget, not_exists]
  · intro name index host e
    simp only [resolve_eq_error_iff, hget]
  · intro name index host value host'
    simp only [resolve_eq_some_iff, hget]
  · intro i refusal hrefusal
    have hi : i < history.length := by
      have hlength := (List.getElem?_eq_some_iff.mp hrefusal).1
      rwa [Builder.length_registerAll] at hlength
    have hentry : history[i]? = some history[i] := List.getElem?_eq_getElem hi
    rw [hanswer hentry, Option.some.injEq] at hrefusal
    rw [List.take_add_one, hentry, Builder.registerAll_append, Option.toList_some,
      Builder.registerAll_cons]
    exact Builder.keep_of_some hrefusal

end Pixelwise.Environment
