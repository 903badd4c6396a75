import Flowchart.Cli.Program

/-!
# The program on a real machine
-/

open Flowchart Flowchart.Cli

/-- Why a file could not be read. -/
def describeFault (e : IO.Error) : String :=
  match e with
  | .noFileOrDirectory .. => "No such file or directory (os error 2)"
  | .permissionDenied .. => "Permission denied (os error 13)"
  | _ => toString e

/-- The files of the working directory, the standard streams, and nothing else. -/
def machineHost (input output errors : IO.FS.Stream) : Host BaseIO where
  readFile path := do
    match ← (IO.FS.readFile path).toBaseIO with
    | .ok text => pure (.ok text)
    | .error e => pure (.error (describeFault e))
  readLine := do
    match ← input.getLine.toBaseIO with
    | .ok "" => pure none
    | .ok line => pure (some line)
    | .error _ => pure none
  write text := do
    discard (output.putStr text).toBaseIO
    discard output.flush.toBaseIO
  warn line := discard (errors.putStrLn line).toBaseIO

/-- How to call the program. -/
def usageLine : String :=
  "usage: blockflow run DIAGRAM | blockflow test DIAGRAM [--cases FILE] [--input VALUE]... " ++
    "[--expect LINE]... [--max-states N] [--max-steps N] [--json] [--verbose]"

def main (words : List String) : IO UInt32 := do
  let errors ← IO.getStderr
  let host := machineHost (← IO.getStdin) (← IO.getStdout) errors
  let outcome ← (program host roundLimit words : BaseIO Exit)
  if outcome = .usage then errors.putStrLn usageLine
  return outcome.code.toUInt32
