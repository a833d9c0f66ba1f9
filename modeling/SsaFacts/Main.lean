import SsaFacts.CommandLine
import SsaFacts.Solver.Script

/-! The program. The solver's replies are read from standard input, one to a line, in the order of the
commands; the commands themselves go to the replay file. -/
open SsaFacts

partial def readLines (input : IO.FS.Stream) (lines : List String) : IO (List String) := do
  let line ← input.getLine
  if line.isEmpty then return lines.reverse
  readLines input (line.trimAscii.toString :: lines)

def replayFile? (args : List String) : Option String :=
  match Request.ofArgs args with
  | some (.analyse o) => o.replay
  | _ => none

def main (args : List String) : IO UInt32 := do
  let replies ← readLines (← IO.getStdin) []
  let (outcome, world) := runProgram {} args { host := Host.ofReplies replies }
  for line in outcome.out do IO.println line
  for line in outcome.err do IO.eprintln line
  if let some path := replayFile? args then
    if let some commands := world.replay then
      IO.FS.writeFile path ("\n".intercalate (commands.reverse.map Smt.Command.text) ++ "\n")
  return outcome.code.toUInt32
