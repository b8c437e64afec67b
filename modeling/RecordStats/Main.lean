import RecordStats.CommandLine

/-! The command: reads the program and the input, checks, and prints. -/

namespace RecordStats.CommandLine

def readProgram (c : CommandLine) : IO String :=
  if c.isFile then IO.FS.readFile c.program else pure c.program

def readInput (c : CommandLine) : IO (Option String) := do
  if c.input.isSome || c.declarationsOnly then return c.input
  let stdin ← IO.getStdin
  if ← stdin.isTty then return none
  return some (← stdin.readToEnd)

def check (c : CommandLine) : IO UInt32 := do
  let program ← readProgram c
  let input ← readInput c
  match Check.run (c.request program input) with
  | .ok result =>
    IO.println (c.resultText result)
    return 0
  | .error e =>
    IO.eprintln (e.text program)
    return 1

end RecordStats.CommandLine

open RecordStats

def main (arguments : List String) : IO UInt32 := do
  match CommandLine.ofArguments arguments with
  | .ok c =>
    try c.check
    catch e =>
      IO.eprintln ("IO error: " ++ toString e)
      return 1
  | .error e =>
    IO.eprintln (e.message ++ "\n" ++ CommandLine.usage)
    return 2
