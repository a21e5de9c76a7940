/-
Paving — whether the pixels of a grid are its cells.

As many pixels as are counted have an entry in every sequence of a grid, and
a run that ends well evaluates all of them in every frame (`lays_count`).  They
are numbered as the cells are, row by row (`map_cell_range`).  But they are
counted in a word of 64 bits: a grid with more cells than that has only some
of them as pixels, or none, and a run of it ends well all the same.

Main statement: `complete_iff`.
-/
import Mathlib.Logic.ExistsUnique
import Pixelwise.Command.Cells
import Pixelwise.Proofs.Sweeping

namespace Pixelwise.Command

namespace Grid

/-- The sequences of a grid have entries for so many pixels: the number of the
pixel, and its column and its row as parts of the width and the height.  A run
over the grid that exits with 0 has evaluated that many in every frame, and
has shown the outputs of them all. -/
structure Lays (g : Grid) (count : Nat) : Prop where
  sizes : g.index.size = count ∧ g.x.size = count ∧ g.y.size = count
  index : ∀ i < count, g.index[i]? = some (Float.ofNat i)
  x : ∀ i < count, g.x[i]? = some (Float.ofNat (g.cell i).1 / Float.ofNat g.width)
  y : ∀ i < count, g.y[i]? = some (Float.ofNat (g.cell i).2 / Float.ofNat g.height)
  runs : ∀ (o : Options) (entropy : UInt64) (file : String → Option String) (stdin : String),
    o.grid = g → ((Plan.ofOptions o).piped entropy file stdin).exitCode = 0 →
    ∃ source engine program, o.source? file stdin = some source ∧
      o.engine entropy = .ok engine ∧ engine.compile source = .ok program ∧
      let samples :=
        program.session.sweep (fun frame => Float.ofNat frame * o.dt) (o.sitesOf count)
      samples.map Sample.site = o.sitesOf count ∧
        (∀ s ∈ samples, ∃ outputs, s.answer = .ok outputs) ∧
        ((Plan.ofOptions o).piped entropy file stdin).stdout =
          o.preface program ++ String.join (samples.map Sample.line)

/-- The pixels of a grid are its cells: there are as many of them, in the
order of the cells, and each cell is one of them exactly once. -/
structure Complete (g : Grid) : Prop extends g.Lays (g.width * g.height) where
  order : (List.range g.index.size).map g.cell = g.cells
  once : ∀ column < g.width, ∀ row < g.height,
    ∃! i, i < g.index.size ∧ g.cell i = (column, row)

variable (g : Grid)

/-! ## Cells -/

theorem cell_add {column : Nat} (h : column < g.width) (row : Nat) :
    g.cell (g.width * row + column) = (column, row) := by
  rw [cell, Nat.mul_add_mod, Nat.mod_eq_of_lt h, Nat.mul_add_div (by omega), Nat.div_eq_of_lt h,
    Nat.add_zero]

/-- The pixels of the first rows are their cells, in order. -/
theorem map_cell_range (rows : Nat) :
    (List.range (g.width * rows)).map g.cell = g.cellsOf rows := by
  induction rows with
  | zero => rfl
  | succ rows ih =>
      have hrow : (List.range g.width).map (fun column => g.cell (g.width * rows + column)) =
          (List.range g.width).map fun column => (column, rows) :=
        List.map_congr_left fun column hcolumn => g.cell_add (List.mem_range.mp hcolumn) rows
      rw [Nat.mul_succ, List.range_add, List.map_append, ih, List.map_map, cellsOf, cellsOf,
        List.range_succ, List.flatMap_append, List.flatMap_singleton]
      exact congrArg _ hrow

theorem existsUnique_pixel {column row : Nat} (hcolumn : column < g.width) (hrow : row < g.height) :
    ∃! i, i < g.width * g.height ∧ g.cell i = (column, row) := by
  refine ⟨g.width * row + column, ⟨?_, g.cell_add hcolumn row⟩, ?_⟩
  · calc g.width * row + column < g.width * row + g.width := Nat.add_lt_add_left hcolumn _
      _ = g.width * (row + 1) := (Nat.mul_succ ..).symm
      _ ≤ g.width * g.height := Nat.mul_le_mul_left _ hrow
  · rintro i ⟨-, hi⟩
    obtain ⟨rfl, rfl⟩ := Prod.mk.inj hi
    exact (Nat.div_add_mod i g.width).symm

end Grid

/-! ## Runs that end well -/

theorem line_of_answer {s : Sample} {outputs : Outputs} (h : s.answer = .ok outputs) :
    s.line = Batch.line s.frame s.pixel outputs := by
  rw [Sample.line, h, Batch.line_eq]

namespace Batch

/-- A loop that is not interrupted shows the outputs of its whole sweep. -/
theorem visit_uninterrupted {clock : Nat → Float} {p : Progress} {sites : List (Nat × Nat)}
    (h : (visit clock p sites).interruption = none) :
    (visit clock p sites).printed.toList =
        p.printed.toList ++ (p.session.sweep clock sites).map Sample.line ∧
      ∀ s ∈ p.session.sweep clock sites, ∃ outputs, s.answer = .ok outputs := by
  induction sites generalizing p with
  | nil => simp [visit, Session.sweep]
  | cons site rest ih =>
      obtain ⟨frame, pixel⟩ := site
      have hanswer : (p.session.sample (clock frame) frame pixel).1.answer =
          (p.session.evaluate pixel (clock frame)).1 := rfl
      have hline : ∀ outputs, (p.session.evaluate pixel (clock frame)).1 = .ok outputs →
          (p.session.sample (clock frame) frame pixel).1.line = line frame pixel outputs :=
        fun _ houtputs => line_of_answer houtputs
      have hnext : (p.session.sample (clock frame) frame pixel).2 =
          (p.session.evaluate pixel (clock frame)).2.1 := rfl
      have hsweep : p.session.sweep clock ((frame, pixel) :: rest) =
          (p.session.sample (clock frame) frame pixel).1 ::
            (p.session.sample (clock frame) frame pixel).2.sweep clock rest := rfl
      rw [hsweep, hnext, List.map_cons, List.forall_mem_cons, hanswer]
      rw [visit] at h ⊢
      generalize p.session.evaluate pixel (clock frame) = evaluated at h hline ⊢
      obtain ⟨error | outputs, session, host⟩ := evaluated
      · cases h
      · obtain ⟨hprinted, hanswers⟩ := ih h
        refine ⟨?_, ⟨outputs, rfl⟩, hanswers⟩
        rw [hline outputs rfl]
        simpa using hprinted

/-- A run that exits with 0 has compiled its program, and has evaluated it at
the sites of all pixels that are counted. -/
theorem runOn_uninterrupted {o : Options} {engine : Engine Float} {source : String}
    (hstill : engine.environment.Still) (h : (runOn o engine source).exitCode = 0) :
    ∃ program, engine.compile source = .ok program ∧
      let samples := program.session.sweep o.clock (o.sitesOf o.grid.count)
      (∀ s ∈ samples, ∃ outputs, s.answer = .ok outputs) ∧
        (runOn o engine source).stdout =
          listing o program ++ String.join (samples.map Sample.line) := by
  rw [runOn] at h ⊢
  cases hcompile : engine.compile source with
  | error e =>
      rw [hcompile] at h
      cases h
  | ok program =>
      have hprogram : program.session.program.engine.environment.Still := by
        obtain ⟨chunk, -, rfl⟩ := Engine.exists_of_compile hcompile
        exact hstill
      have hframes := frames_sitesOf (o := o) (p := ⟨#[], program.session, none⟩) hprogram rfl
        o.grid.count
      simp only [hcompile, hframes] at h ⊢
      cases hstop : (visit o.clock ⟨#[], program.session, none⟩
          (o.sitesOf o.grid.count)).interruption with
      | some i =>
          rw [hstop] at h
          cases h
      | none =>
          obtain ⟨hprinted, hanswers⟩ := visit_uninterrupted hstop
          refine ⟨program, rfl, hanswers, ?_⟩
          rw [hprinted]
          rfl

end Batch

/-- A run that is not interactive and exits with 0 carries out a program. -/
theorem exists_source {o : Options} {entropy : UInt64} {file : String → Option String}
    {stdin : String} (h : ((Plan.ofOptions o).piped entropy file stdin).exitCode = 0) :
    ∃ source, o.source? file stdin = some source ∧
      (Plan.ofOptions o).piped entropy file stdin = Batch.run o entropy source := by
  by_cases hzero : o.width = 0 ∨ o.height = 0
  · rw [Plan.ofOptions, if_pos hzero] at h
    cases h
  · have hroom : o.grid.reserve = .ok () := by
      cases hreserve : o.grid.reserve with
      | ok _ => rfl
      | error panic =>
          rw [ofOptions_of_error (by omega) (by omega) hreserve] at h
          cases h
    cases hsource : o.source? file stdin with
    | some source =>
        exact ⟨source, rfl, piped_eq_run (by omega) (by omega) hroom hsource entropy⟩
    | none =>
        -- only a file that cannot be read gives no program
        rw [Plan.ofOptions, if_neg hzero, hroom] at h
        dsimp only at h
        rw [Options.source?] at hsource
        cases hprogram : o.program with
        | some text => simp [hprogram] at hsource
        | none =>
            cases hfile : o.file with
            | none => simp [hprogram, hfile] at hsource
            | some path =>
                simp only [hprogram, hfile] at h hsource
                simp [Plan.piped, Plan.carryOut, hsource, Plan.unreadable, Result.failure] at h

namespace Grid

variable (g : Grid)

/-! ## What is laid out -/

/-- Of every grid as many pixels are laid out as are counted. -/
theorem lays_count : g.Lays g.count where
  sizes := by simp [index, x, y]
  index i hi := by simp [index, hi]
  x i hi := by simp [x, cell, hi]
  y i hi := by simp [y, cell, hi]
  runs := by
    rintro o entropy file stdin rfl hexit
    obtain ⟨source, hsource, hrun⟩ := exists_source hexit
    rw [run_eq_runOn] at hrun
    rw [hrun] at hexit ⊢
    obtain ⟨program, hprogram, hanswers, hstdout⟩ :=
      Batch.runOn_uninterrupted o.grid.still_table hexit
    exact ⟨source, _, program, hsource, engine_eq o entropy, hprogram,
      Session.sites_sweep _ _ _, hanswers, hstdout⟩

/-- A grid is complete exactly if a word of 64 bits can hold the number of its
cells.  In any case it has an entry for each pixel that is counted, and a run
that exits with 0 has evaluated just these in every frame.  There is a run of
the grid exactly if there is room for its sequences, which are of less than
2 ^ 60 entries then; if not, it ends before anything is read, with 101. -/
theorem complete_iff : g.Lays g.count ∧ (g.Complete ↔ g.width * g.height < UInt64.size) ∧
    (g.reserve = .ok () ↔ g.count < 2 ^ 60) ∧
    ∀ o : Options, o.grid = g → 1 ≤ g.width → 1 ≤ g.height → 2 ^ 60 ≤ g.count →
      Plan.ofOptions o = .finished ⟨101, "", "capacity overflow\n"⟩ := by
  refine ⟨g.lays_count, ⟨fun h => ?_, fun h => ?_⟩, ⟨fun h => ?_, g.reserve_of_lt⟩, ?_⟩
  · have hsize : g.count = g.width * g.height := g.lays_count.sizes.1.symm.trans h.sizes.1
    rw [← hsize]
    exact Nat.mod_lt _ (by decide)
  · have hlays : g.Lays (g.width * g.height) := g.count_eq h ▸ g.lays_count
    refine ⟨hlays, ?_, ?_⟩
    · rw [hlays.sizes.1]
      exact g.map_cell_range g.height
    · intro column hcolumn row hrow
      rw [hlays.sizes.1]
      exact g.existsUnique_pixel hcolumn hrow
  · refine Nat.lt_of_not_le fun hlarge => ?_
    rw [g.reserve_of_le hlarge] at h
    cases h
  · rintro o rfl hwidth hheight hlarge
    exact ofOptions_of_error hwidth hheight (o.grid.reserve_of_le hlarge)

/-- A grid of 2 ^ 64 cells is accepted, but it has no pixel: a program that
divides by zero at each of them is run without an error, and shows nothing. -/
theorem incomplete_wrapping :
    let o : Options := ⟨some "1/0;", none, 4294967296, 4294967296, 1, 1 / 30, none, true, false⟩
    Options.ofArguments ["--width", "4294967296", "--height", "4294967296",
        "--fail-on-divide-by-zero", "1/0;"] = .ok o ∧
      (Plan.ofOptions o).piped 0 (fun _ => none) "" = ⟨0, "", ""⟩ ∧ ¬ o.grid.Complete := by
  intro o
  refine ⟨rfl, ?_, fun hcomplete => ?_⟩
  · have hcompile : compile Grid.names "1/0;" =
        .ok ⟨[.constant 1, .constant 0, .binary .divide, .pop], [1, 1, 1, 1], 2⟩ := by
      with_unfolding_all rfl
    have hcount : o.grid.count = 0 := by decide
    have hroom : o.grid.reserve = .ok () := o.grid.reserve_of_lt (by decide)
    rw [piped_eq_run (by decide) (by decide) hroom rfl, run_eq_runOn]
    simp only [Batch.runOn, Engine.compile, names_table, hcompile, hcount]
    rfl
  · have hsize := hcomplete.sizes.1
    rw [o.grid.lays_count.sizes.1] at hsize
    exact absurd hsize (by decide)

end Grid

end Pixelwise.Command
