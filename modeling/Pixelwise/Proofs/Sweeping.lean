/-
Sweeping — a batch run shows a sweep of its sites.

The two loops of a batch run are one loop over its sites (`frames_eq`), which
stops at the first error.  Over a grid the only error is a zero divisor under
the policy that fails, and up to there the policies do the same
(`visit_sweep`).

The text of a line is what `Sample.row` spells out (`line_eq`).

Main statement: `piped_shows_sweep`, that a run prints a line for each site of
a single sweep, or for those before the first zero divisor, if there is room for
the sequences of its grid.
-/
import Pixelwise.Command.Plan
import Pixelwise.Command.Sweep
import Pixelwise.Proofs.Dividing
import Pixelwise.Proofs.Gridding

namespace Pixelwise

open Generator (Drawn)

/-! ## Sessions -/

namespace Session

section

variable {σ : Type} (session : Session σ)

theorem evaluate_program (index : Nat) (host : σ) :
    (session.evaluate index host).2.1.program = session.program := by
  rw [evaluate]
  split
  · rfl
  · split <;> rfl

theorem evaluate_host {session : Session σ} (h : session.program.engine.environment.Still)
    (index : Nat) (host : σ) :
    (session.evaluate index host).2.2 = host :=
  (evaluate_alike (h host) (Alike.refl rfl) rfl rfl index).left

/-- An evaluation draws the next numbers of its session, or none. -/
theorem step_drawn (index : Nat) (host : σ) :
    Drawn (step index (session, host)).1.drawn session.generator
      (step index (session, host)).2.1.generator := by
  obtain ⟨program, generator, halted⟩ := session
  cases halted with
  | true => exact .nil _
  | false =>
      rw [step_session]
      have hdrawn := Machine.Processor.handOn_drawn program.engine.environment
        program.engine.division program.chunk index generator host
      rwa [Machine.Processor.handOn_eq] at hdrawn

end

variable (clock : Nat → Float) (sites : List (Nat × Nat)) (session : Session Float)

/-- A sweep draws one stream, that of the session in which it begins. -/
theorem sweep_drawn :
    ∃ last, Drawn ((session.sweep clock sites).flatMap (·.drawn)) session.generator last := by
  induction sites generalizing session with
  | nil => exact ⟨_, .nil _⟩
  | cons site rest ih =>
      obtain ⟨last, hrest⟩ := ih (session.sample (clock site.1) site.1 site.2).2
      exact ⟨last, (session.step_drawn site.2 (clock site.1)).append hrest⟩

theorem sites_sweep : (session.sweep clock sites).map Sample.site = sites := by
  induction sites generalizing session with
  | nil => rfl
  | cons site rest ih =>
      rw [sweep, List.map_cons, ih]
      rfl

end Session

/-! ## Text -/

namespace Command.Batch

theorem padLeft_eq (width n : Nat) :
    Listing.padLeft width ' ' (toString n) = Sample.column width n := by
  have hdigits : toString n = String.ofList (Nat.toDigits 10 n) := rfl
  rw [Listing.padLeft, Sample.column, hdigits, String.length_ofList, String.ofList_append]

theorem describe_eq (outputs : Outputs) : outputs.describe = Sample.items outputs.values := by
  rw [Outputs.describe]
  induction outputs.values with
  | nil => rfl
  | cons first rest ih =>
      cases rest with
      | nil => exact String.intercalate_singleton
      | cons second rest =>
          rw [List.map_cons, List.map_cons, String.intercalate_cons_cons]
          exact congrArg _ ih

/-- A run prints the line that it should show. -/
theorem line_eq (frame pixel : Nat) (outputs : Outputs) :
    line frame pixel outputs = Sample.row frame pixel outputs := by
  rw [line, padLeft_eq, padLeft_eq, describe_eq, Sample.row]

end Command.Batch

/-! ## Two loops in one -/

namespace Command.Batch

/-- Evaluate at sites in order, up to the first error. -/
def visit (clock : Nat → Float) (p : Progress) : List (Nat × Nat) → Progress
  | [] => p
  | (frame, pixel) :: rest =>
    match p.session.evaluate pixel (clock frame) with
    | (.error error, session, _) => { p with session, interruption := some ⟨frame, pixel, error⟩ }
    | (.ok outputs, session, _) =>
      visit clock { p with printed := p.printed.push (line frame pixel outputs), session } rest

variable {clock : Nat → Float} {p : Progress}

theorem visit_program (sites : List (Nat × Nat)) :
    (visit clock p sites).session.program = p.session.program := by
  induction sites generalizing p with
  | nil => rfl
  | cons site rest ih =>
      have hprogram := p.session.evaluate_program site.2 (clock site.1)
      rw [visit]
      split
      · rename_i heq
        rw [heq] at hprogram
        exact hprogram
      · rename_i heq
        rw [heq] at hprogram
        exact ih.trans hprogram

theorem visit_append (hp : p.interruption = none) (xs ys : List (Nat × Nat)) :
    visit clock p (xs ++ ys) =
      if (visit clock p xs).interruption.isSome then visit clock p xs
      else visit clock (visit clock p xs) ys := by
  induction xs generalizing p with
  | nil => simp [visit, hp]
  | cons site rest ih =>
      rw [List.cons_append, visit, visit]
      split
      · rfl
      · exact ih hp

theorem pixels_eq (h : p.session.program.engine.environment.Still) (frame : Nat)
    (remaining pixel : Nat) :
    pixels frame (clock frame) p remaining pixel =
      visit clock p ((List.range' pixel remaining).map fun pixel => (frame, pixel)) := by
  induction remaining generalizing p pixel with
  | zero => rfl
  | succ remaining ih =>
      have hhost := Session.evaluate_host h pixel (clock frame)
      have hprogram := p.session.evaluate_program pixel (clock frame)
      rw [pixels, List.range'_succ, List.map_cons, visit]
      generalize p.session.evaluate pixel (clock frame) = evaluated at hhost hprogram ⊢
      obtain ⟨answer, session, host⟩ := evaluated
      obtain rfl : host = clock frame := hhost
      cases answer with
      | error error => rfl
      | ok outputs =>
          have hstill : session.program.engine.environment.Still := by
            rw [show session.program = p.session.program from hprogram]
            exact h
          exact ih hstill (pixel + 1)

theorem frames_eq {o : Options} (h : p.session.program.engine.environment.Still)
    (hp : p.interruption = none) (count remaining frame : Nat) :
    frames o count p remaining frame =
      visit o.clock p ((List.range' frame remaining).flatMap fun frame =>
        (List.range' 0 count).map fun pixel => (frame, pixel)) := by
  induction remaining generalizing p frame with
  | zero => rfl
  | succ remaining ih =>
      rw [frames, List.range'_succ, List.flatMap_cons, visit_append hp, pixels_eq h]
      split
      · rfl
      · rename_i hnow
        refine ih ?_ (by simpa using hnow) (frame + 1)
        rw [visit_program]
        exact h

/-- A run goes through the sites of the pixels that are counted. -/
theorem frames_sitesOf {o : Options} (h : p.session.program.engine.environment.Still)
    (hp : p.interruption = none) (count : Nat) :
    frames o count p o.frames 0 = visit o.clock p (o.sitesOf count) := by
  rw [frames_eq h hp, Options.sitesOf, List.range_eq_range', List.range_eq_range']

/-- A run goes through its sites. -/
theorem frames_sites {o : Options} (h : p.session.program.engine.environment.Still)
    (hp : p.interruption = none) (hcount : o.width * o.height < UInt64.size) :
    frames o o.grid.count p o.frames 0 = visit o.clock p o.sites := by
  rw [frames_sitesOf h hp, o.grid.count_eq hcount]
  rfl

/-! ## A run and its sweep -/

/-- The evaluations that a run shows: all, or those before the first with a
zero divisor. -/
def shown : DivisionPolicy → List Sample → List Sample
  | .zero, samples => samples
  | .fail, samples => samples.takeWhile fun s => !s.zeroDivisor

theorem shown_cons {division : DivisionPolicy} {s : Sample} {rest : List Sample}
    (h : ¬(division = .fail ∧ s.zeroDivisor = true)) :
    shown division (s :: rest) = s :: shown division rest := by
  cases division with
  | zero => rfl
  | fail =>
      have hzero : s.zeroDivisor = false := by simpa using h
      simp [shown, hzero]

theorem shown_cons_of_zero {s : Sample} (h : s.zeroDivisor = true) (rest : List Sample) :
    shown .fail (s :: rest) = [] := by
  simp [shown, h]

/-- Every evaluation with the lenient policy succeeds, at the first pixels. -/
def Succeeds (program : Program Float) (count : Nat) : Prop :=
  ∀ generator pixel clock, pixel < count →
    ∃ bindings, (program.lenient.run generator pixel clock).result = .ok bindings

/-- The code of the program comes to a zero divisor. -/
def Divides (program : Program Float) (generator : Generator) (pixel : Nat) (clock : Float) :
    Bool :=
  Machine.meetsZero program.engine.environment pixel ⟨[], .empty, generator, clock⟩
    program.chunk.instructions

section

variable {program : Program Float} {generator : Generator} {pixel : Nat} {t : Float}

theorem run_eq_lenient
    (h : ¬(program.engine.division = .fail ∧ Divides program generator pixel t = true)) :
    program.run generator pixel t = program.lenient.run generator pixel t := by
  cases hdivision : program.engine.division with
  | zero =>
      rw [Program.run, hdivision]
      rfl
  | fail =>
      have hdivides : Divides program generator pixel t = false := by simpa [hdivision] using h
      rw [Program.run, hdivision]
      exact Machine.runFrom_fail hdivides

/-- A session goes on behind an evaluation without a zero divisor that
matters. -/
theorem evaluate_lenient {bindings : Bindings}
    (h : ¬(program.engine.division = .fail ∧ Divides program generator pixel t = true))
    (hok : (program.lenient.run generator pixel t).result = .ok bindings) :
    (⟨program, generator, false⟩ : Session Float).evaluate pixel t =
      (.ok (program.engine.layout.extract bindings),
        ⟨program, (program.lenient.run generator pixel t).generator, false⟩,
        (program.lenient.run generator pixel t).host) := by
  rw [Session.evaluate_live]
  simp only [Program.yield, Program.failure?, Program.visit, run_eq_lenient h, hok]
  rfl

/-- A zero divisor that matters is an error. -/
theorem evaluate_divides (hdivision : program.engine.division = .fail)
    (h : Divides program generator pixel t = true) :
    ∃ error next, (⟨program, generator, false⟩ : Session Float).evaluate pixel t =
      (.error error, next) := by
  obtain ⟨line, hline⟩ := @Machine.runFrom_fail_of_meets _ _ _ _ program.chunk 0 _ h
  have hrun : (program.run generator pixel t).result = .error ⟨.divisionByZero, line⟩ := by
    rw [Program.run, hdivision]
    exact hline
  rw [Session.evaluate_live]
  simp only [Program.yield, Program.visit, hrun]
  exact ⟨_, _, rfl⟩

theorem sample_lenient {bindings : Bindings}
    (hok : (program.lenient.run generator pixel t).result = .ok bindings) (frame : Nat) :
    (⟨program.lenient, generator, false⟩ : Session Float).sample t frame pixel =
      (⟨frame, pixel, .ok (program.engine.layout.extract bindings),
          program.lenient.draws generator pixel t, Divides program generator pixel t⟩,
        ⟨program.lenient, (program.lenient.run generator pixel t).generator, false⟩) := by
  rw [Session.sample, step_session, hok]
  rfl

end

/-- A run prints what its sweep shows, and is interrupted where that ends
early. -/
theorem visit_sweep (clock : Nat → Float) {program : Program Float} {count : Nat}
    (hsucceeds : Succeeds program count) {sites : List (Nat × Nat)}
    (hsites : ∀ site ∈ sites, site.2 < count) (printed : Array String) (generator : Generator) :
    let samples := Session.sweep clock sites ⟨program.lenient, generator, false⟩
    let p := visit clock ⟨printed, ⟨program, generator, false⟩, none⟩ sites
    p.printed.toList =
        printed.toList ++ (shown program.engine.division samples).map Sample.line ∧
      (p.interruption.isSome ↔
        program.engine.division = .fail ∧ ∃ s ∈ samples, s.zeroDivisor = true) ∧
      ∀ s ∈ samples, ∃ outputs, s.answer = .ok outputs := by
  induction sites generalizing printed generator with
  | nil => cases program.engine.division <;> simp [Session.sweep, visit, shown]
  | cons site rest ih =>
      obtain ⟨frame, pixel⟩ := site
      obtain ⟨hpixel, hrest⟩ := List.forall_mem_cons.mp hsites
      obtain ⟨bindings, hok⟩ := hsucceeds generator pixel (clock frame) hpixel
      obtain ⟨hprinted, hinterruption, hanswers⟩ := ih hrest
        (printed.push (line frame pixel (program.engine.layout.extract bindings)))
        (program.lenient.run generator pixel (clock frame)).generator
      simp only [Session.sweep, sample_lenient hok, visit]
      refine and_assoc.mp ⟨?_, List.forall_mem_cons.mpr ⟨⟨_, rfl⟩, hanswers⟩⟩
      by_cases hstops : program.engine.division = .fail ∧
          Divides program generator pixel (clock frame) = true
      · obtain ⟨error, next, heval⟩ := evaluate_divides hstops.1 hstops.2
        rw [heval, hstops.1, shown_cons_of_zero hstops.2]
        exact ⟨by simp, iff_of_true rfl ⟨rfl, _, List.mem_cons_self, hstops.2⟩⟩
      · rw [evaluate_lenient hstops hok, shown_cons hstops, List.map_cons]
        refine ⟨by simpa [Sample.line, line_eq] using hprinted, hinterruption.trans ?_⟩
        refine and_congr_right fun hdivision => ?_
        have hzero : Divides program generator pixel (clock frame) = false := by
          simpa [hdivision] using hstops
        simp [hzero]

theorem lt_of_mem_sites {o : Options} {site : Nat × Nat} (h : site ∈ o.sites) :
    site.2 < o.width * o.height := by
  simp only [Options.sites, List.mem_flatMap, List.mem_map, List.mem_range] at h
  obtain ⟨frame, -, pixel, hpixel, rfl⟩ := h
  exact hpixel

/-- A run of a program that compiled prints the listing and what its sweep
shows, and exits with 1 if it was interrupted. -/
theorem runOn_shows {o : Options} {engine : Engine Float} {source : String}
    {program : Program Float} (hcompile : engine.compile source = .ok program)
    (hstill : program.engine.environment.Still)
    (hsucceeds : Succeeds program (o.width * o.height))
    (hcount : o.width * o.height < UInt64.size) :
    let samples := program.lenient.session.sweep o.clock o.sites
    let result := runOn o engine source
    result.stdout =
        listing o program ++ String.join ((shown program.engine.division samples).map Sample.line) ∧
      (program.engine.division = .fail ∧ (∃ s ∈ samples, s.zeroDivisor = true) ∧
          result.exitCode = 1 ∨
        ¬(program.engine.division = .fail ∧ ∃ s ∈ samples, s.zeroDivisor = true) ∧
          result.exitCode = 0 ∧ result.stderr = "") ∧
      ∀ s ∈ samples, ∃ outputs, s.answer = .ok outputs := by
  intro samples result
  obtain ⟨hprinted, hinterruption, hanswers⟩ := visit_sweep o.clock hsucceeds
    (fun _ => lt_of_mem_sites) #[] (.ofSeed program.engine.seed)
  have hframes := frames_sites (p := ⟨#[], program.session, none⟩) hstill rfl hcount
  have hresult : result = runOn o engine source := rfl
  simp only [runOn, hcompile, hframes] at hresult
  change (visit o.clock ⟨#[], program.session, none⟩ o.sites).printed.toList =
    (shown program.engine.division samples).map Sample.line at hprinted
  change (visit o.clock ⟨#[], program.session, none⟩ o.sites).interruption.isSome ↔
    program.engine.division = .fail ∧ ∃ s ∈ samples, s.zeroDivisor = true at hinterruption
  rw [hprinted] at hresult
  refine and_assoc.mp ⟨?_, hanswers⟩
  cases hstop : (visit o.clock ⟨#[], program.session, none⟩ o.sites).interruption with
  | none =>
      rw [hstop] at hresult hinterruption
      rw [hresult]
      exact ⟨rfl, .inr ⟨fun h => by simpa using hinterruption.mpr h, rfl, rfl⟩⟩
  | some i =>
      rw [hstop] at hresult hinterruption
      rw [hresult]
      obtain ⟨hdivision, hzero⟩ := hinterruption.mp rfl
      exact ⟨rfl, .inl ⟨hdivision, hzero, rfl⟩⟩

end Command.Batch

open Command

/-- A program that compiled against the names of a grid cannot fail but for a
zero divisor. -/
theorem succeeds_of_compile {g : Grid} (hcount : g.width * g.height < UInt64.size)
    {source : String} {chunk : Chunk} (h : compile Grid.names source = .ok chunk)
    {program : Program Float} (henvironment : program.engine.environment = g.table)
    (hchunk : program.chunk = chunk) : Batch.Succeeds program (g.width * g.height) := by
  intro generator pixel clock hpixel
  have hlong : ∀ name values, g.table.get? name = some (.sequence values) →
      pixel < values.size := by
    intro name values hget
    rw [g.size_of_sequence hget, g.count_eq hcount]
    exact hpixel
  obtain ⟨bindings, hok⟩ :=
    @succeeds_of_long _ g.table pixel _ _ _ h g.provides_table generator clock hlong
  refine ⟨bindings, ?_⟩
  rw [Program.run, Program.lenient, henvironment, hchunk]
  exact hok

namespace Command

/-- Without room for its sequences a run ends before anything is read. -/
theorem ofOptions_of_error {o : Options} (hwidth : 1 ≤ o.width) (hheight : 1 ≤ o.height)
    {panic : Panic} (hroom : o.grid.reserve = .error panic) :
    Plan.ofOptions o = .finished (.panicked panic) := by
  rw [Plan.ofOptions, if_neg (by omega), hroom]

/-- A run that is not interactive carries out its program. -/
theorem piped_eq_run {o : Options} (hwidth : 1 ≤ o.width) (hheight : 1 ≤ o.height)
    (hroom : o.grid.reserve = .ok ()) {file : String → Option String} {stdin source : String}
    (hsource : o.source? file stdin = some source) (entropy : UInt64) :
    (Plan.ofOptions o).piped entropy file stdin = Batch.run o entropy source := by
  rw [Plan.ofOptions, if_neg (by omega), hroom]
  rw [Options.source?] at hsource
  dsimp only
  cases hprogram : o.program with
  | some text =>
      rw [hprogram] at hsource
      cases hsource
      rfl
  | none =>
      rw [hprogram] at hsource
      cases hfile : o.file with
      | some path =>
          rw [hfile] at hsource
          simp only [Plan.piped, Plan.carryOut, show file path = some source from hsource]
      | none =>
          rw [hfile] at hsource
          cases hsource
          rfl

theorem engine_eq (o : Options) (entropy : UInt64) :
    o.engine entropy = .ok ⟨o.grid.table, if o.failOnDivideByZero then .fail else .zero,
      o.seed.getD entropy, .pixel⟩ := by
  rw [Options.engine, o.grid.environment_eq]
  rfl

/-- A program is run on the engine of the options. -/
theorem run_eq_runOn (o : Options) (entropy : UInt64) (source : String) :
    Batch.run o entropy source =
      Batch.runOn o ⟨o.grid.table, if o.failOnDivideByZero then .fail else .zero,
        o.seed.getD entropy, .pixel⟩ source := by
  rw [Batch.run, engine_eq]

end Command

/-- A run that is not interactive and has no room for its sequences ends on the
spot.  Any other makes one sweep of its sites, in which every evaluation has
outputs and random numbers go on from site to site, if divisions by zero come
to zero.  It prints a line for each of them and exits with 0; with the flag, it
prints the lines before the first evaluation that comes to a zero divisor, and
exits with 1 exactly if there is one. -/
theorem piped_shows_sweep {o : Options} (hwidth : 1 ≤ o.width) (hheight : 1 ≤ o.height)
    (hcount : o.width * o.height < 2 ^ 64) {file : String → Option String}
    {stdin source : String} (hsource : o.source? file stdin = some source) {chunk : Chunk}
    (hcompile : compile Grid.names source = .ok chunk) (entropy : UInt64) :
    let result := (Plan.ofOptions o).piped entropy file stdin
    let seed := o.seed.getD entropy
    let engine : Engine Float :=
      ⟨o.grid.table, if o.failOnDivideByZero then .fail else .zero, seed, .pixel⟩
    let program : Program Float := ⟨engine, chunk, .ofSeed seed⟩
    let samples :=
      program.lenient.session.sweep (fun frame => Float.ofNat frame * o.dt) o.sites
    (2 ^ 60 ≤ o.width * o.height → result = ⟨101, "", "capacity overflow\n"⟩) ∧
      (o.width * o.height < 2 ^ 60 →
        o.engine entropy = .ok engine ∧ engine.compile source = .ok program ∧
          samples.map Sample.site = o.sites ∧
          (∀ s ∈ samples, ∃ outputs, s.answer = .ok outputs) ∧
          (∃ last, Drawn (samples.flatMap (·.drawn)) (.ofSeed seed) last) ∧
          (o.failOnDivideByZero = false →
            result = ⟨0, o.preface program ++ String.join (samples.map Sample.line), ""⟩) ∧
          (o.failOnDivideByZero = true →
            result.stdout = o.preface program ++
                String.join ((samples.takeWhile fun s => !s.zeroDivisor).map Sample.line) ∧
              result.exitCode = if ∃ s ∈ samples, s.zeroDivisor = true then 1 else 0)) := by
  intro result seed engine program samples
  have hcells : o.grid.count = o.width * o.height := o.grid.count_eq hcount
  refine ⟨fun hlarge => ?_, fun hsmall => ?_⟩
  · have hroom : o.grid.reserve = .error .capacityOverflow :=
      o.grid.reserve_of_le (hcells ▸ hlarge)
    have hplan := ofOptions_of_error hwidth hheight hroom
    exact congrArg (Plan.piped · entropy file stdin) hplan
  have hroom : o.grid.reserve = .ok () := o.grid.reserve_of_lt (hcells ▸ hsmall)
  have hengine : o.engine entropy = .ok engine := engine_eq o entropy
  have hprogram : engine.compile source = .ok program := by
    rw [Engine.compile, show engine.environment.names = Grid.names from o.grid.names_table,
      hcompile]
  have hresult : result = Batch.runOn o engine source :=
    (piped_eq_run hwidth hheight hroom hsource entropy).trans (run_eq_runOn o entropy source)
  have hsucceeds : Batch.Succeeds program (o.width * o.height) :=
    succeeds_of_compile (g := o.grid) hcount hcompile rfl rfl
  obtain ⟨hstdout, hexit, hanswers⟩ :=
    Batch.runOn_shows hprogram o.grid.still_table hsucceeds hcount
  have hsamples : program.lenient.session.sweep o.clock o.sites = samples := rfl
  rw [hsamples] at hstdout hexit hanswers
  refine ⟨hengine, hprogram, Session.sites_sweep _ _ _, hanswers,
    Session.sweep_drawn _ _ program.lenient.session, fun hflag => ?_, fun hflag => ?_⟩
  · have hdivision : program.engine.division = .zero := by simp [program, engine, hflag]
    rw [hdivision] at hstdout hexit
    obtain ⟨-, hcode, hstderr⟩ := hexit.resolve_left fun h => by cases h.1
    rw [hresult]
    generalize Batch.runOn o engine source = run at hstdout hcode hstderr ⊢
    obtain ⟨exitCode, stdout, stderr⟩ := run
    obtain rfl : exitCode = 0 := hcode
    obtain rfl : stderr = "" := hstderr
    exact congrArg (Result.mk 0 · "") hstdout
  · have hdivision : program.engine.division = .fail := by simp [program, engine, hflag]
    rw [hdivision] at hstdout hexit
    rw [hresult]
    refine ⟨hstdout, ?_⟩
    rcases hexit with ⟨-, hzero, hcode⟩ | ⟨hnone, hcode, -⟩
    · rw [hcode, if_pos hzero]
    · rw [hcode, if_neg fun h => hnone ⟨rfl, h⟩]

/-- The divisor is zero at the second of two pixels, in both frames. -/
theorem piped_shows_sweep_reciprocal :
    let o : Options := ⟨some "x'=1/(index-1)+t;", none, 2, 1, 2, 0.5, some 7, false, false⟩
    let lenient := (Plan.ofOptions o).piped 0 (fun _ => none) ""
    let strict := (Plan.ofOptions { o with failOnDivideByZero := true }).piped 0 (fun _ => none) ""
    lenient = ⟨0,
        "   0      0  x'=-1 y'=0 h=0 s=1 l=0.5 a=1\n" ++
        "   0      1  x'=0 y'=0 h=0 s=1 l=0.5 a=1\n" ++
        "   1      0  x'=-0.5 y'=0 h=0 s=1 l=0.5 a=1\n" ++
        "   1      1  x'=0.5 y'=0 h=0 s=1 l=0.5 a=1\n", ""⟩ ∧
      strict.stdout = "   0      0  x'=-1 y'=0 h=0 s=1 l=0.5 a=1\n" ∧ strict.exitCode = 1 := by
  intro o lenient strict
  let chunk : Chunk :=
    ⟨[.constant 1, .get "index", .constant 1, .binary .subtract, .binary .divide, .get "t",
        .binary .add, .set "x'", .get "x'", .pop], [1, 1, 1, 1, 1, 1, 1, 1, 1, 1], 3⟩
  let program : Program Float := ⟨⟨Grid.table ⟨2, 1⟩, .zero, 7, .pixel⟩, chunk, .ofSeed 7⟩
  let samples := program.session.sweep (fun frame => Float.ofNat frame * o.dt) o.sites
  have hcompile : compile Grid.names "x'=1/(index-1)+t;" = .ok chunk := by with_unfolding_all rfl
  have hlines : samples.map Sample.line =
      ["   0      0  x'=-1 y'=0 h=0 s=1 l=0.5 a=1\n", "   0      1  x'=0 y'=0 h=0 s=1 l=0.5 a=1\n",
        "   1      0  x'=-0.5 y'=0 h=0 s=1 l=0.5 a=1\n",
        "   1      1  x'=0.5 y'=0 h=0 s=1 l=0.5 a=1\n"] := by
    decide +kernel
  have hzeros : samples.map (·.zeroDivisor) = [false, true, false, true] := by
    decide +kernel
  have hshown : (samples.takeWhile fun s => !s.zeroDivisor).map Sample.line =
      ["   0      0  x'=-1 y'=0 h=0 s=1 l=0.5 a=1\n"] := by
    decide +kernel
  have hzero : ∃ s ∈ samples, s.zeroDivisor = true := by
    rw [← List.mem_map, hzeros]
    decide
  obtain ⟨-, -, -, -, -, hlenient, -⟩ :=
    (@piped_shows_sweep o (by decide) (by decide) (by decide) (fun _ => none) "" _ rfl _
      hcompile 0).2 (by decide)
  obtain ⟨-, -, -, -, -, -, hstrict⟩ :=
    (@piped_shows_sweep { o with failOnDivideByZero := true } (by decide) (by decide) (by decide)
      (fun _ => none) "" _ rfl _ hcompile 0).2 (by decide)
  obtain ⟨hstdout, hcode⟩ := hstrict rfl
  refine ⟨(hlenient rfl).trans ?_, hstdout.trans ?_, hcode.trans (if_pos hzero)⟩
  · exact congrArg (fun lines => (⟨0, String.join lines, ""⟩ : Result)) hlines
  · exact congrArg String.join hshown

/-- A grid whose sequences there can be no room for: the run ends at once, though
it has no frame and nothing to print. -/
theorem piped_overflows :
    let o : Options := ⟨some "1;", none, 1073741824, 1073741824, 0, 1 / 30, none, false, false⟩
    Options.ofArguments
        ["--width", "1073741824", "--height", "1073741824", "--frames", "0", "1;"] = .ok o ∧
      1 ≤ o.width ∧ 1 ≤ o.height ∧ o.width * o.height < 2 ^ 64 ∧ o.failOnDivideByZero = false ∧
      (∃ chunk, compile Grid.names "1;" = .ok chunk) ∧
      (Plan.ofOptions o).piped 0 (fun _ => none) "" = ⟨101, "", "capacity overflow\n"⟩ := by
  intro o
  have hcompile : compile Grid.names "1;" = .ok ⟨[.constant 1, .pop], [1, 1], 1⟩ := by
    with_unfolding_all rfl
  have hplan : Plan.ofOptions o = .finished (.panicked .capacityOverflow) :=
    ofOptions_of_error (by decide) (by decide) (Grid.reserve_of_le _ (by decide))
  exact ⟨rfl, by decide, by decide, by decide, rfl, ⟨_, hcompile⟩, by rw [hplan]; rfl⟩

end Pixelwise
