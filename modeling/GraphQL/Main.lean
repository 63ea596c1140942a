import GraphQL.CommandLine

/-!
# The program

Reads files, calls the commands, and prints what they come to.  A document named `-` is read from standard input.
-/

namespace GraphQL

namespace Terminal

/-- Reads standard input to its end. -/
partial def readRest (input : IO.FS.Stream) (lines : String) : IO String := do
  let line ← input.getLine
  if line.isEmpty then return lines else readRest input (lines ++ line)

/-- The contents of a document, if it can be read. -/
def readDocument (name : String) : IO (Option String) := do
  try
    if name = "-" then return some (← readRest (← IO.getStdin) "")
    else return some (← IO.FS.readFile name)
  catch _ => return none

/-- What a command comes to. -/
def execute : Invocation → IO (Except CommandError CommandOutcome)
  | .run document options => do
    match ← readDocument document with
    | none => return .error .noFile
    | some source => return Command.run source options
  | .check files => return Command.check (← files.mapM readDocument)

/-- Runs the command that the words ask for, and gives the exit code. -/
def runWords (words : List String) : IO UInt32 := do
  match Invocation.ofWords words with
  | .error e =>
    IO.eprintln ("error: " ++ e.message)
    return 2
  | .ok invocation =>
    match ← execute invocation with
    | .error e =>
      IO.eprintln ("Error: " ++ e.message)
      return 1
    | .ok outcome =>
      outcome.lines.forM IO.println
      outcome.errors.forM fun e => IO.eprintln e.report
      return outcome.code.toUInt32

end Terminal

end GraphQL

/-- The program. -/
def main (words : List String) : IO UInt32 := GraphQL.Terminal.runWords words
