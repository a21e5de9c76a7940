/-
Interactive runs — each line is a program of its own, evaluated at pixel
zero.

Lines share nothing: every line has the clock at zero and a generator at
its start, and no name assigned on one line is known on another.
-/
import Pixelwise.Command.Batch

namespace Pixelwise.Command.Interactive

/-- What is printed before the first line. -/
def banner : String :=
  "glint REPL - each line is compiled and evaluated at pixel 0 (Ctrl+D or Ctrl+C to exit)\n"

/-- What is printed after the last line. -/
def farewell : String :=
  "\nGoodbye!\n"

/-- What a successful evaluation shows: the value of the last statement, if
there is one, and the outputs. -/
def present (layout : Layout) (bindings : Bindings) : String :=
  (match bindings.last with
    | some value => Decimal.write value ++ "\n"
    | none => "") ++ (layout.extract bindings).describe ++ "\n"

/-- The answer to a line. -/
def respondOn (o : Options) (engine : Engine Float) (line : String) : Result :=
  match engine.compile line with
  | .error e => ⟨0, "", Report.render true e⟩
  | .ok program =>
    match (program.run (.ofSeed engine.seed) 0 0).result with
    | .ok bindings => ⟨0, Batch.listing o program ++ present engine.layout bindings, ""⟩
    | .error failure => ⟨0, Batch.listing o program, Report.render true (.runtime failure)⟩

/-- The answer to a line.  Without a seed its generator starts at
`entropy`. -/
def respond (o : Options) (entropy : UInt64) (line : String) : Result :=
  match o.engine entropy with
  | .error e => .failure 1 e.message
  | .ok engine => respondOn o engine line

/-- All that is printed when some lines are typed and the input then
ends. -/
def transcript (o : Options) (entropy : UInt64) (lines : List String) : Result :=
  match o.engine entropy with
  | .error e => .failure 1 e.message
  | .ok engine =>
    let answers := lines.map (respondOn o engine)
    ⟨0, banner ++ String.join (answers.map Result.stdout) ++ farewell,
      String.join (answers.map Result.stderr)⟩

end Pixelwise.Command.Interactive
