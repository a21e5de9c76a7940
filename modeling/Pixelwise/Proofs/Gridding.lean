/-
Gridding — what the environment of a grid gives to programs.

All inputs of a grid can be registered, and then they stand in the order of
their names (`environment_eq`).  Its sequences have a value for every pixel
(`size_of_sequence`), and reading the clock does not change it
(`still_table`).
-/
import Mathlib
import Pixelwise.Command.Grid
import Pixelwise.NameTable.Order
import Pixelwise.Proofs.Independence
import Pixelwise.Proofs.Registering
import Pixelwise.Proofs.Safety

namespace Pixelwise

/-! ## Registering inputs -/

/-- Inputs with different names that are still free can all be registered. -/
theorem foldlM_register {σ : Type} {entries : List (String × Input σ)} {env : Environment σ}
    (hlibrary : ∀ e ∈ entries, Builtin.ofName? e.1 = none)
    (hfree : ∀ e ∈ entries, env.get? e.1 = none) (hnodup : (entries.map Prod.fst).Nodup) :
    entries.foldlM (fun env e => env.register e.1 e.2) env =
      .ok (entries.foldl (fun env e => ⟨env.inputs.insert e.1 e.2⟩) env) := by
  induction entries generalizing env with
  | nil => rfl
  | cons e rest ih =>
      obtain ⟨hname, hlibrary⟩ := List.forall_mem_cons.mp hlibrary
      obtain ⟨hnew, hfree⟩ := List.forall_mem_cons.mp hfree
      rw [List.map_cons, List.nodup_cons] at hnodup
      have hregister : env.register e.1 e.2 = .ok ⟨env.inputs.insert e.1 e.2⟩ := by
        simp [Environment.register, hname, hnew]
      rw [List.foldlM_cons, hregister]
      refine ih hlibrary (fun e' he' => ?_) hnodup.2
      have hne : e.1 ≠ e'.1 := fun heq => hnodup.1 (heq ▸ List.mem_map_of_mem he')
      rw [Environment.get?_register hregister, if_neg hne]
      exact hfree e' he'

/-- Reads leave every host as it is. -/
def Environment.Still {σ : Type} (env : Environment σ) : Prop :=
  ∀ host, env.Steady (· = host)

/-! ## Grids -/

namespace Command.Grid

/-- The names of the inputs of a grid. -/
def names : List String :=
  ["height", "index", "t", "width", "x", "y"]

/-- The inputs of a grid, in the order of their names. -/
def table (g : Grid) : Environment Float where
  inputs.entries := [
    ("height", .constant (Float.ofNat g.height)),
    ("index", .sequence g.index),
    ("t", .computed fun clock => (clock, clock)),
    ("width", .constant (Float.ofNat g.width)),
    ("x", .sequence g.x),
    ("y", .sequence g.y)]

variable (g : Grid)

theorem environment_eq : g.environment = .ok g.table := by
  have hlibrary : ∀ name ∈ ["x", "y", "index", "width", "height", "t"],
      Builtin.ofName? name = none := by
    decide
  rw [environment, ← Environment.ofList_eq, Environment.ofList, foldlM_register]
  · simp only [inputs, table, Environment.empty, NameTable.empty, NameTable.insert,
      NameTable.insertEntry, List.foldl_cons, List.foldl_nil, String.reduceLT, String.reduceEq,
      reduceIte]
  · simpa [inputs] using hlibrary
  · simp [inputs, Environment.empty, Environment.get?]
  · simp [inputs]

theorem names_table : g.table.names = names := rfl

theorem provides_table : Syntax.Provides g.table names := by
  intro name hname _
  simp only [names, List.mem_cons, List.not_mem_nil, or_false] at hname
  rcases hname with rfl | rfl | rfl | rfl | rfl | rfl <;> rfl

theorem count_eq (h : g.width * g.height < UInt64.size) : g.count = g.width * g.height :=
  Nat.mod_eq_of_lt h

theorem reserve_of_lt (h : g.count < 2 ^ 60) : g.reserve = .ok () := by
  have hsize : g.count * entrySize < byteLimit := by
    rw [entrySize, byteLimit]
    omega
  exact Pixelwise.reserve_of_lt hsize

theorem reserve_of_le (h : 2 ^ 60 ≤ g.count) : g.reserve = .error .capacityOverflow := by
  have hsize : byteLimit ≤ g.count * entrySize := by
    rw [entrySize, byteLimit]
    omega
  exact Pixelwise.reserve_of_le hsize

/-- There is a value for every pixel. -/
theorem size_of_sequence {name : String} {values : Array Float}
    (h : g.table.get? name = some (.sequence values)) : values.size = g.count := by
  have hmem := NameTable.mem_of_findEntry h
  simp only [table, List.mem_cons, Prod.mk.injEq, Input.sequence.injEq, reduceCtorEq, and_false,
    List.not_mem_nil, or_false, false_or] at hmem
  rcases hmem with ⟨-, rfl⟩ | ⟨-, rfl⟩ | ⟨-, rfl⟩ <;> simp [index, x, y]

/-- The clock is the only computed input. -/
theorem eq_clock_of_computed {name : String} {read : Float → Float × Float}
    (h : g.table.get? name = some (.computed read)) : read = fun clock => (clock, clock) := by
  have hmem := NameTable.mem_of_findEntry h
  simp only [table, List.mem_cons, Prod.mk.injEq, Input.computed.injEq, reduceCtorEq, and_false,
    List.not_mem_nil, or_false, false_or] at hmem
  exact hmem.2

theorem still_table : g.table.Still := by
  intro clock
  constructor
  · rintro name read h s t rfl rfl
    rfl
  · rintro name read h s rfl
    rw [g.eq_clock_of_computed h]

end Command.Grid

end Pixelwise
