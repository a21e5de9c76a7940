/-
Dialogues — lines that are answered one after another on one host.

The clock is all that the host has to hand on: each answer begins at the clock
that the one before it left.  `Agrees` says what there is in common between the
answer to a line and a batch run of the same text.
-/
import Pixelwise.Command.Plan
import Pixelwise.Command.Sweep
import Pixelwise.Syntax.Grammar

namespace Pixelwise.Command

namespace Interactive

/-- The answer to a line while the clock stands at `clock`, and where the clock
stands after it. -/
def answer (o : Options) (engine : Engine Float) (clock : Float) (line : String) :
    Result × Float :=
  match engine.compile line with
  | .error e => (⟨0, "", Report.render true e⟩, clock)
  | .ok program =>
    match program.run (.ofSeed engine.seed) 0 clock with
    | ⟨.ok bindings, _, clock⟩ =>
      (⟨0, Batch.listing o program ++ present engine.layout bindings, ""⟩, clock)
    | ⟨.error failure, _, clock⟩ =>
      (⟨0, Batch.listing o program, Report.render true (.runtime failure)⟩, clock)

/-- The answers to lines, in order. -/
def dialogue (o : Options) (engine : Engine Float) (clock : Float) : List String → List Result
  | [] => []
  | line :: rest =>
    let (result, clock) := answer o engine clock line
    result :: dialogue o engine clock rest

/-- All that is printed when these answers are given. -/
def transcribe (answers : List Result) : Result :=
  ⟨0, banner ++ String.join (answers.map Result.stdout) ++ farewell,
    String.join (answers.map Result.stderr)⟩

/-- The line that shows the value of the last statement, if there is one. -/
def lastLine : Option Float → String
  | some value => Decimal.write value ++ "\n"
  | none => ""

end Interactive

/-- The options ask for the same grid, seed, division policy and listing. -/
structure Options.Matches (r o : Options) : Prop where
  width : r.width = o.width
  height : r.height = o.height
  seed : r.seed = o.seed
  failOnDivideByZero : r.failOnDivideByZero = o.failOnDivideByZero
  disassemble : r.disassemble = o.disassemble

/-- The answer to a line and a batch run of it agree: both refuse it for the
same reason; or both show its listing, and then the failure that it comes to
at pixel 0 of frame 0; or both show its listing and the same outputs, which
the answer puts behind the value of the last statement if there is a
statement, and the run in its first line. -/
inductive Agrees (o : Options) (engine : Engine Float) (line : String) : Result → Result → Prop
  | refused {e : Error} : engine.compile line = .error e →
      Agrees o engine line ⟨0, "", Report.render true e⟩
        ⟨1, "", Report.render true e ++ "Error: compilation failed\n"⟩
  | failed {program : Program Float} {failure : Failure} : engine.compile line = .ok program →
      Agrees o engine line
        ⟨0, o.preface program, Report.render true (.runtime failure)⟩
        ⟨1, o.preface program, Report.render true (.runtime failure) ++
          "Error: evaluation stopped at frame 0, pixel 0\n"⟩
  | shown {program : Program Float} {tree : List Syntax.Statement} {last : Option Float}
      {outputs : Outputs} {exitCode : Nat} {rest stderr : String} :
      engine.compile line = .ok program →
      Syntax.DerivesProgram (Token.scan line) tree → (last.isSome = true ↔ tree ≠ []) →
      Agrees o engine line
        ⟨0, o.preface program ++
          (Interactive.lastLine last ++ (Sample.items outputs.values ++ "\n")), ""⟩
        ⟨exitCode, o.preface program ++
          ("   0      0  " ++ Sample.items outputs.values ++ "\n" ++ rest), stderr⟩

end Pixelwise.Command
