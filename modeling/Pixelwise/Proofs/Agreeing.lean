/-
Agreeing — a line that is typed and a batch run of the same text.

Nothing passes from one line to the next, for reads leave the clock at zero
(`dialogue_eq`).  A batch run evaluates pixel 0 of frame 0 before all else: what
that comes to, it prints first or ends with (`exists_runOn`, `runOn_error`).
The generator is there the one of a line, and so is the clock, as zero times
the seconds between two frames is zero (`zero_mul_eq_zero`) — unless these are
negative zero.

Main statement: `typed_agrees_piped`, that a line is answered as a batch run of
it begins, whatever was typed before.
-/
import Mathlib
import Pixelwise.Command.Dialogue
import Pixelwise.Proofs.Meaning
import Pixelwise.Proofs.Sweeping

namespace Pixelwise

open Float.Model

/-! ## Zero times a number -/

/-- There is only one negative zero. -/
theorem eq_neg_zero_of_unpack {x : Float} (h : x.toModel.unpack = .zero .negative) : x = -0 := by
  have hbits : x.toModel.toBits.toBitVec = UnpackedFloat.packedZero Format.binary64 .negative :=
    (UnpackedFloat.unpack_eq_zero_iff_of_valid x.toModel.valid).mp h
  exact Float.toBits_inj.mp (UInt64.toBitVec_inj.mp hbits)

theorem zero_mul_eq_zero {x : Float} (hfinite : x.isFinite = true) (hle : 0 ≤ x) (hne : x ≠ -0) :
    0 * x = 0 := by
  have hzero : (Float.toModel 0).unpack = .zero .positive := rfl
  have hle : (Float.toModel 0).unpack.le x.toModel.unpack = true := of_decide_eq_true hle
  have hfinite : x.toModel.unpack.isFinite = true := hfinite
  change Float.ofModel (pack (.mul Format.binary64 (Float.toModel 0).unpack x.toModel.unpack)) = 0
  rw [hzero] at hle ⊢
  cases hx : x.toModel.unpack with
  | infinity sign =>
      rw [hx] at hfinite
      cases hfinite
  | notANumber =>
      rw [hx] at hfinite
      cases hfinite
  | zero sign =>
      cases sign with
      | positive => rfl
      | negative => exact absurd (eq_neg_zero_of_unpack hx) hne
  | finite sign mantissa exponent hmantissa =>
      cases sign with
      | positive => rfl
      | negative =>
          rw [hx] at hle
          cases hle

/-! ## The value of the last statement -/

namespace Syntax

variable {σ : Type} {env : Environment σ} {division : DivisionPolicy} {index : Nat}

/-- Each statement leaves its value. -/
theorem isSome_last_evaluateStatements {program : List Statement} (hne : program ≠ [])
    {m m' : Store σ} (h : evaluateStatements env division index program m = (.ok (), m')) :
    m'.bindings.last.isSome = true := by
  induction program generalizing m with
  | nil => exact absurd rfl hne
  | cons s rest ih =>
      rw [evaluateStatements] at h
      split at h
      · cases h
      · cases rest with
        | nil =>
            cases h
            rfl
        | cons s' rest => exact ih (List.cons_ne_nil s' rest) h

theorem isSome_last_iff {program : List Statement} {generator : Generator} {host : σ}
    {bindings : Bindings}
    (h : (evaluate env division index program generator host).result = .ok bindings) :
    bindings.last.isSome = true ↔ program ≠ [] := by
  constructor
  · rintro hlast rfl
    cases h
    cases hlast
  · intro hne
    rw [evaluate] at h
    split at h
    · rename_i m heq
      cases h
      exact isSome_last_evaluateStatements hne heq
    · cases h

end Syntax

/-- There is a last value if there is a statement. -/
theorem isSome_last_run {σ : Type} {engine : Engine σ} {source : String} {program : Program σ}
    (hcompile : engine.compile source = .ok program) {generator : Generator} {index : Nat}
    {host : σ} {bindings : Bindings}
    (h : (program.run generator index host).result = .ok bindings) :
    ∃ tree, Syntax.DerivesProgram (Token.scan source) tree ∧
      (bindings.last.isSome = true ↔ tree ≠ []) := by
  obtain ⟨chunk, hchunk, rfl⟩ := Engine.exists_of_compile hcompile
  obtain ⟨tree, htree, hnames, rfl⟩ := Compiler.compileAfter_eq_ok_iff.mp hchunk
  rw [Program.run, Syntax.run_code (Syntax.resolved_of_diagnose hnames)] at h
  exact ⟨tree, htree, Syntax.isSome_last_iff h⟩

/-- A run leaves a host as it is if all reads do. -/
theorem Program.run_host {σ : Type} (program : Program σ)
    (h : program.engine.environment.Still) (generator : Generator) (index : Nat) (host : σ) :
    (program.run generator index host).host = host :=
  (Program.visit_steady (h host) index generator rfl rfl).2.2.1

namespace Command

/-! ## Lines -/

namespace Interactive

variable {engine : Engine Float} (hstill : engine.environment.Still) (o : Options)
include hstill

/-- An answer leaves the clock as it is, and at zero it is the answer to the
line alone. -/
theorem answer_eq (line : String) : answer o engine 0 line = (respondOn o engine line, 0) := by
  rw [answer, respondOn]
  cases hcompile : engine.compile line with
  | error e => rfl
  | ok program =>
      obtain ⟨chunk, -, rfl⟩ := Engine.exists_of_compile hcompile
      have hclock := Program.run_host ⟨engine, chunk, .ofSeed engine.seed⟩ hstill
        (.ofSeed engine.seed) 0 0
      dsimp only
      generalize Program.run _ _ _ _ = outcome at hclock ⊢
      obtain ⟨result, generator, clock⟩ := outcome
      obtain rfl : clock = 0 := hclock
      cases result <;> rfl

/-- Lines are answered each by itself. -/
theorem dialogue_eq (lines : List String) :
    dialogue o engine 0 lines = lines.map (respondOn o engine) := by
  induction lines with
  | nil => rfl
  | cons line rest ih =>
      rw [dialogue, answer_eq hstill, List.map_cons, ← ih]

end Interactive

/-! ## The first evaluation of a run -/

namespace Batch

section

variable {clock : Nat → Float} (p : Progress) (site : Nat × Nat) (rest : List (Nat × Nat))
  {next : Session Float × Float}

/-- Lines that were printed stay. -/
theorem exists_printed_visit (clock : Nat → Float) (sites : List (Nat × Nat)) :
    ∃ more, (visit clock p sites).printed.toList = p.printed.toList ++ more := by
  induction sites generalizing p with
  | nil => exact ⟨[], by simp [visit]⟩
  | cons site rest ih =>
      rw [visit]
      split
      · exact ⟨[], by simp⟩
      · rename_i outputs session _ _
        obtain ⟨more, hmore⟩ := ih
          { p with printed := p.printed.push (line site.1 site.2 outputs), session }
        exact ⟨line site.1 site.2 outputs :: more, by simpa using hmore⟩

theorem exists_printed_visit_cons {outputs : Outputs}
    (h : p.session.evaluate site.2 (clock site.1) = (.ok outputs, next)) :
    ∃ more, (visit clock p (site :: rest)).printed.toList =
      p.printed.toList ++ line site.1 site.2 outputs :: more := by
  rw [visit, h]
  obtain ⟨more, hmore⟩ := exists_printed_visit
    { p with printed := p.printed.push (line site.1 site.2 outputs), session := next.1 } clock rest
  exact ⟨more, by simpa using hmore⟩

theorem visit_cons_error {error : Error}
    (h : p.session.evaluate site.2 (clock site.1) = (.error error, next)) :
    visit clock p (site :: rest) =
      { p with session := next.1, interruption := some ⟨site.1, site.2, error⟩ } := by
  rw [visit, h]

end

theorem exists_sites {o : Options} (hframes : 1 ≤ o.frames) (hwidth : 1 ≤ o.width)
    (hheight : 1 ≤ o.height) : ∃ rest, o.sites = (0, 0) :: rest := by
  obtain ⟨frames, hframes⟩ := Nat.exists_eq_add_of_le' hframes
  obtain ⟨count, hcount⟩ := Nat.exists_eq_add_of_le' (Nat.mul_pos hwidth hheight)
  rw [Options.sites, hframes, hcount, List.range_succ_eq_map (n := frames), List.flatMap_cons,
    List.range_succ_eq_map]
  exact ⟨_, rfl⟩

section

variable {o : Options} {engine : Engine Float} {source : String} {program : Program Float}
  (hcompile : engine.compile source = .ok program) (hstill : engine.environment.Still)
  {rest : List (Nat × Nat)} (hsites : o.sites = (0, 0) :: rest)
  (hcount : o.width * o.height < UInt64.size)
include hcompile hstill hsites hcount

/-- A run prints what its first evaluation came to before all other lines. -/
theorem exists_runOn {bindings : Bindings}
    (h : (program.run (.ofSeed engine.seed) 0 (o.clock 0)).result = .ok bindings) :
    ∃ exitCode more stderr, runOn o engine source =
      ⟨exitCode, listing o program ++ (line 0 0 (engine.layout.extract bindings) ++ more),
        stderr⟩ := by
  obtain ⟨chunk, -, hprogram⟩ := Engine.exists_of_compile hcompile
  have hengine : program.engine = engine := by rw [hprogram]
  obtain ⟨next, hfirst⟩ : ∃ next, program.session.evaluate 0 (o.clock 0) =
      (.ok (engine.layout.extract bindings), next) := by
    rw [Program.session, Session.evaluate_live, Program.yield, Program.visit, hengine, h,
      Program.outputs, hengine]
    exact ⟨_, rfl⟩
  obtain ⟨more, hprinted⟩ :=
    exists_printed_visit_cons ⟨#[], program.session, none⟩ (0, 0) rest hfirst
  rw [runOn, hcompile]
  dsimp only
  rw [frames_sites (hengine ▸ hstill) rfl hcount, hsites, hprinted]
  rw [Array.toList_empty, List.nil_append, String.join_cons]
  split
  · exact ⟨_, _, _, rfl⟩
  · exact ⟨_, _, _, rfl⟩

/-- A run ends with its first evaluation if that fails. -/
theorem runOn_error {failure : Failure}
    (h : (program.run (.ofSeed engine.seed) 0 (o.clock 0)).result = .error failure) :
    runOn o engine source =
      ⟨1, listing o program, Report.render true (.runtime failure) ++
        "Error: evaluation stopped at frame 0, pixel 0\n"⟩ := by
  obtain ⟨chunk, -, hprogram⟩ := Engine.exists_of_compile hcompile
  have hengine : program.engine = engine := by rw [hprogram]
  obtain ⟨next, hfirst⟩ : ∃ next, program.session.evaluate 0 (o.clock 0) =
      (.error (.runtime failure), next) := by
    rw [Program.session, Session.evaluate_live, Program.yield, Program.visit, hengine, h]
    exact ⟨_, rfl⟩
  have hvisit := visit_cons_error ⟨#[], program.session, none⟩ (0, 0) rest hfirst
  rw [runOn, hcompile]
  dsimp only
  rw [frames_sites (hengine ▸ hstill) rfl hcount, hsites, hvisit]
  simp only [String.append_assoc]
  congr 1
  simp

/-- A line is answered as a run of it begins, if the clock of the run begins
at zero. -/
theorem respondOn_agrees {r : Options} (hlisting : r.disassemble = o.disassemble)
    (hclock : o.clock 0 = 0) :
    Agrees o engine source (Interactive.respondOn r engine source) (runOn o engine source) := by
  have hsame : listing r program = listing o program := by rw [listing, listing, hlisting]
  have hrun : program.run (.ofSeed engine.seed) 0 (o.clock 0) =
      program.run (.ofSeed engine.seed) 0 0 :=
    congrArg _ hclock
  rw [Interactive.respondOn, hcompile]
  dsimp only
  rw [hsame]
  cases hresult : (program.run (.ofSeed engine.seed) 0 0).result with
  | error failure =>
      rw [← hrun] at hresult
      rw [runOn_error hcompile hstill hsites hcount hresult]
      exact .failed hcompile
  | ok bindings =>
      obtain ⟨tree, htree, hlast⟩ := isSome_last_run hcompile hresult
      rw [← hrun] at hresult
      obtain ⟨exitCode, more, stderr, hrunOn⟩ := exists_runOn hcompile hstill hsites hcount hresult
      rw [hrunOn]
      have hanswer : Interactive.present engine.layout bindings =
          Interactive.lastLine bindings.last ++
            (Sample.items (engine.layout.extract bindings).values ++ "\n") := by
        rw [Interactive.present, String.append_assoc, describe_eq]
        rfl
      have hline : line 0 0 (engine.layout.extract bindings) =
          "   0      0  " ++ Sample.items (engine.layout.extract bindings).values ++ "\n" := by
        rw [line_eq, Sample.row]
        rfl
      dsimp only
      rw [hanswer, hline]
      exact .shown hcompile htree hlast

end

end Batch

end Command

open Command

/-- A line that is typed is answered as a run of the same text begins that is
not interactive, if both have the same grid, seed, division policy and listing
and the run has a frame: both refuse it, or both list it and then come to the
same failure or show the same outputs.  What the line is answered does not
depend on the lines around it.  Both end at once if there is no room for the
sequences of the grid.

The seconds between two frames may be any finite number that is not negative,
but not negative zero. -/
theorem typed_agrees_piped {r o : Options} (hmatches : r.Matches o) (hprogram : r.program = none)
    (hfile : r.file = none) (hwidth : 1 ≤ o.width) (hheight : 1 ≤ o.height)
    (hcount : o.width * o.height < UInt64.size) (hframes : 1 ≤ o.frames)
    (hfinite : o.dt.isFinite = true) (hdt : 0 ≤ o.dt) (hnegative : o.dt ≠ -0) {seed : UInt64}
    (hseed : o.seed = some seed) {file : String → Option String} {stdin line : String}
    (hline : o.source? file stdin = some line) (entropy entropy' : UInt64) :
    (2 ^ 60 ≤ o.width * o.height →
        (Plan.ofOptions o).piped entropy' file stdin = ⟨101, "", "capacity overflow\n"⟩ ∧
        ∀ lines, (Plan.ofOptions r).typed entropy file lines = ⟨101, "", "capacity overflow\n"⟩) ∧
      (o.width * o.height < 2 ^ 60 →
        ∃ engine answer, r.engine entropy = .ok engine ∧ o.engine entropy' = .ok engine ∧
          Agrees o engine line answer ((Plan.ofOptions o).piped entropy' file stdin) ∧
          ∀ earlier later,
            let lines := earlier ++ line :: later
            (Plan.ofOptions r).typed entropy file lines =
                Interactive.transcribe (Interactive.dialogue r engine 0 lines) ∧
              (Interactive.dialogue r engine 0 lines)[earlier.length]? = some answer) := by
  have hgrid : r.grid = o.grid := by
    rw [Options.grid, hmatches.width, hmatches.height, Options.grid]
  have hwidth' : 1 ≤ r.width := hmatches.width ▸ hwidth
  have hheight' : 1 ≤ r.height := hmatches.height ▸ hheight
  have hcells : o.grid.count = o.width * o.height := o.grid.count_eq hcount
  refine ⟨fun hlarge => ?_, fun hsmall => ?_⟩
  · have hroom : o.grid.reserve = .error .capacityOverflow :=
      o.grid.reserve_of_le (hcells ▸ hlarge)
    have hplan := ofOptions_of_error hwidth hheight hroom
    have hplan' := ofOptions_of_error hwidth' hheight' (hgrid ▸ hroom)
    rw [hplan, hplan']
    exact ⟨rfl, fun _ => rfl⟩
  have hroom : o.grid.reserve = .ok () := o.grid.reserve_of_lt (hcells ▸ hsmall)
  obtain ⟨engine, hengine⟩ : ∃ engine, o.engine entropy' = .ok engine := ⟨_, engine_eq o entropy'⟩
  have hengine' : r.engine entropy = .ok engine := by
    rw [← hengine, engine_eq, engine_eq, Options.grid, Options.grid, hmatches.width,
      hmatches.height, hmatches.seed, hmatches.failOnDivideByZero, hseed]
    rfl
  have hstill : engine.environment.Still := by
    rw [engine_eq] at hengine
    cases hengine
    exact o.grid.still_table
  refine ⟨engine, Interactive.respondOn r engine line, hengine', hengine, ?_, ?_⟩
  · rw [piped_eq_run hwidth hheight hroom hline, Batch.run, hengine]
    have hclock : o.clock 0 = 0 := zero_mul_eq_zero hfinite hdt hnegative
    obtain ⟨rest, hsites⟩ := Batch.exists_sites hframes hwidth hheight
    dsimp only
    cases hcompile : engine.compile line with
    | error e =>
        rw [Interactive.respondOn, Batch.runOn, hcompile]
        exact .refused hcompile
    | ok program =>
        exact Batch.respondOn_agrees hcompile hstill hsites hcount hmatches.disassemble hclock
  · intro earlier later lines
    rw [Interactive.dialogue_eq hstill]
    constructor
    · rw [Plan.ofOptions, if_neg (by omega), hgrid, hroom, hprogram, hfile]
      change Interactive.transcript r entropy lines = _
      rw [Interactive.transcript, hengine']
      rfl
    · simp [lines]

/-- A line behind one that divides by zero. -/
theorem typed_agrees_piped_ramp :
    let r : Options := ⟨none, none, 2, 1, 1, 0.5, some 7, true, true⟩
    let o : Options := ⟨none, some "ramp", 2, 1, 3, 0.25, some 7, true, true⟩
    let file : String → Option String := fun path =>
      if path = "ramp" then some "x' = t + index;" else none
    let lines := ["y' = 1 / index;", "x' = t + index;"]
    ∃ engine answer, Agrees o engine "x' = t + index;" answer ((Plan.ofOptions o).piped 2 file "") ∧
      (Plan.ofOptions r).typed 1 file lines =
          Interactive.transcribe (Interactive.dialogue r engine 0 lines) ∧
        (Interactive.dialogue r engine 0 lines)[1]? = some answer := by
  intro r o file lines
  have hmatches : r.Matches o := ⟨rfl, rfl, rfl, rfl, rfl⟩
  obtain ⟨engine, answer, -, -, hagrees, hanswers⟩ :=
    (@typed_agrees_piped r o hmatches rfl rfl (by decide) (by decide) (by decide) (by decide)
      (by decide +kernel) (by decide +kernel) (by decide +kernel) 7 rfl file "" _ rfl 1 2).2
        (by decide)
  exact ⟨engine, answer, hagrees, hanswers ["y' = 1 / index;"] []⟩

/-- Zero times negative zero is negative zero, which a program can tell from
the zero that the clock of a line is. -/
theorem typed_disagrees_piped_negative_zero :
    let r : Options := ⟨none, none, 1, 1, 1, -0, some 0, false, false⟩
    let o : Options := { r with program := some "x'=t;" }
    let engine : Engine Float := ⟨r.grid.table, .zero, 0, .pixel⟩
    let answer := Interactive.respondOn r engine "x'=t;"
    let run := (Plan.ofOptions o).piped 0 (fun _ => none) ""
    r.Matches o ∧ o.dt.isFinite = true ∧ 0 ≤ o.dt ∧ o.source? (fun _ => none) "" = some "x'=t;" ∧
      r.engine 0 = .ok engine ∧ o.engine 0 = .ok engine ∧
      Interactive.dialogue r engine 0 ["x'=t;"] = [answer] ∧
      answer.stdout = "0\nx'=0 y'=0 h=0 s=1 l=0.5 a=1\n" ∧
      run.stdout = "   0      0  x'=-0 y'=0 h=0 s=1 l=0.5 a=1\n" ∧
      ¬ Agrees o engine "x'=t;" answer run := by
  intro r o engine answer run
  have hanswer : answer.stdout = "0\nx'=0 y'=0 h=0 s=1 l=0.5 a=1\n" := by
    decide +kernel
  have hroom : o.grid.reserve = .ok () := o.grid.reserve_of_lt (by decide)
  have hrunOn : run = Batch.runOn o engine "x'=t;" :=
    (piped_eq_run (Nat.le_refl 1) (Nat.le_refl 1) hroom rfl 0).trans (run_eq_runOn o 0 _)
  have hrun : run.stdout = "   0      0  x'=-0 y'=0 h=0 s=1 l=0.5 a=1\n" := by
    rw [hrunOn]
    decide +kernel
  refine ⟨⟨rfl, rfl, rfl, rfl, rfl⟩, by decide +kernel, by decide +kernel, rfl, engine_eq r 0,
    engine_eq o 0, Interactive.dialogue_eq r.grid.still_table r _, hanswer, hrun, ?_⟩
  generalize answer = answer at hanswer ⊢
  generalize run = run at hrun ⊢
  intro hagrees
  cases hagrees with
  | refused _ => simp at hanswer
  | failed _ => exact absurd (hanswer.symm.trans hrun) (by decide)
  | @shown program tree last outputs exitCode rest stderr _ _ _ =>
      have hhyphen : '-' ∈ (Sample.items outputs.values).toList := by
        have htext : (Sample.items outputs.values).toList ++ '\n' :: rest.toList =
            "x'=-0 y'=0 h=0 s=1 l=0.5 a=1\n".toList := by
          have h := congrArg String.toList hrun
          simpa [Options.preface, o, r] using h
        -- The line of the outputs does not end before the sign.
        generalize (Sample.items outputs.values).toList = text at htext ⊢
        rcases text with _ | ⟨a, _ | ⟨b, _ | ⟨c, _ | ⟨d, text⟩⟩⟩⟩ <;> simp_all
      have hmem : '-' ∈ "0\nx'=0 y'=0 h=0 s=1 l=0.5 a=1\n".toList := by
        rw [← hanswer]
        simp [hhyphen]
      exact absurd hmem (by decide)

end Pixelwise
