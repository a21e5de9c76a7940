/-
The command — arguments, files and the standard streams.

All that is decided is decided by the plan; here it is carried out.
-/
import Pixelwise.Command.Plan

open Pixelwise.Command

/-- Write what a result has for each stream. -/
def emitResult (r : Result) : IO Unit := do
  (← IO.getStdout).putStr r.stdout
  (← IO.getStdout).flush
  (← IO.getStderr).putStr r.stderr

/-- A seed that differs from run to run. -/
def freshSeed : IO UInt64 := do
  let bytes ← IO.getRandomBytes 8
  return bytes.foldl (fun seed byte => seed * 256 + byte.toUInt64) 0

/-- Answer lines until the input ends. -/
partial def answerLines (o : Options) : IO Unit := do
  (← IO.getStderr).putStr "glint> "
  let line ← (← IO.getStdin).getLine
  if line.isEmpty then
    (← IO.getStdout).putStr Interactive.farewell
  else
    emitResult (Interactive.respond o (← freshSeed) (line.dropEndWhile (· = '\n')).toString)
    answerLines o

/-- Carry out a plan and give its exit code. -/
def carryOut (plan : Plan) : IO UInt32 := do
  let finish (r : Result) : IO UInt32 := do
    emitResult r
    return r.exitCode.toUInt32
  match plan with
  | .finished result => finish result
  | .runText o source => finish (Batch.run o (← freshSeed) source)
  | .runFile o path =>
    let source? ← try some <$> IO.FS.readFile path catch _ => pure none
    match source? with
    | some source => finish (Batch.run o (← freshSeed) source)
    | none => finish (Plan.unreadable path)
  | .runInput o =>
    if ← (← IO.getStdin).isTty then
      (← IO.getStdout).putStr Interactive.banner
      answerLines o
      return 0
    else
      let source ← (← IO.getStdin).readToEnd
      finish (Batch.run o (← freshSeed) source)

/-- Run the command. -/
def main (args : List String) : IO UInt32 :=
  carryOut (Plan.ofArguments args)
