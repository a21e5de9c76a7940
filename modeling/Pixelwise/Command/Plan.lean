/-
What the command is to do — settled by its arguments alone, before anything
is read.

There has to be a pixel, and room for the sequences of the grid.  A program
among the arguments comes before one in a file, and that before one on the
standard input.  On a terminal the standard input gives lines instead, each a
program.
-/
import Pixelwise.Command.Interactive

namespace Pixelwise.Command

/-- What is left to do once the arguments are read. -/
inductive Plan where
  | finished (result : Result)
  | runText (o : Options) (source : String)
  | runFile (o : Options) (path : String)
  | runInput (o : Options)

/-- What is printed when help is asked for. -/
def helpText : String :=
  "Compile a glint program and evaluate it over a pixel grid\n\n" ++
  "Usage: glint [OPTIONS] [PROGRAM]\n\n" ++
  "Arguments:\n" ++
  "  [PROGRAM]  Program source (if not provided, reads --file, then stdin)\n\n" ++
  "Options:\n" ++
  "  -f, --file <FILE>             Read the program from a file\n" ++
  "      --width <WIDTH>           Grid width in pixels [default: 4]\n" ++
  "      --height <HEIGHT>         Grid height in pixels [default: 4]\n" ++
  "      --frames <FRAMES>         Number of frames to evaluate [default: 1]\n" ++
  "      --dt <DT>                 Seconds the clock `t` advances per frame " ++
    "[default: 0.03333333333333333]\n" ++
  "      --seed <SEED>             Seed for `rand()`\n" ++
  "      --fail-on-divide-by-zero  Fail on `/` or `%` by zero instead of yielding 0\n" ++
  "      --disassemble             Print the compiled bytecode before evaluating\n" ++
  "  -h, --help                    Print help\n"

namespace Plan

/-- The plan for options that were understood. -/
def ofOptions (o : Options) : Plan :=
  if o.width = 0 ∨ o.height = 0 then .finished (.failure 1 "the grid must be at least 1x1")
  else
    match o.grid.reserve with
    | .error panic => .finished (.panicked panic)
    | .ok () =>
      match o.program, o.file with
      | some source, _ => .runText o source
      | none, some path => .runFile o path
      | none, none => .runInput o

/-- The plan that arguments call for. -/
def ofArguments (args : List String) : Plan :=
  match Options.ofArguments args with
  | .ok o => ofOptions o
  | .error .helpWanted => .finished ⟨0, helpText, ""⟩
  | .error .refused => .finished ⟨2, "", "error: invalid arguments; try '--help'\n"⟩

/-- The result for a file that cannot be read. -/
def unreadable (path : String) : Result :=
  .failure 1 ("cannot read " ++ path)

/-- Carry out a plan, given the texts of the files and what to do with the
standard input. -/
def carryOut (plan : Plan) (entropy : UInt64) (file : String → Option String)
    (input : Options → Result) : Result :=
  match plan with
  | finished result => result
  | runText o source => Batch.run o entropy source
  | runFile o path =>
    match file path with
    | some source => Batch.run o entropy source
    | none => unreadable path
  | runInput o => input o

/-- Carry out a plan with a text on the standard input. -/
def piped (plan : Plan) (entropy : UInt64) (file : String → Option String) (stdin : String) :
    Result :=
  plan.carryOut entropy file fun o => Batch.run o entropy stdin

/-- Carry out a plan with lines typed on a terminal. -/
def typed (plan : Plan) (entropy : UInt64) (file : String → Option String)
    (lines : List String) : Result :=
  plan.carryOut entropy file fun o => Interactive.transcript o entropy lines

end Plan

end Pixelwise.Command
