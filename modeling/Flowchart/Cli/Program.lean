import Flowchart.Cli.Command
import Flowchart.Cli.Host
import Flowchart.Diagram.Encoding
import Flowchart.Explore.Summary
import Flowchart.Live
import Flowchart.Suite

/-!
# The program

The program ends with a code: zero if the run or all tests succeeded, one if they
did not, and two if it could not do what it was told. A search or a run that never
ends is given up after a number of rounds that no machine gets through.
-/

namespace Flowchart.Cli

/-- Why the program could not do what it was told. -/
inductive Problem where
  | unreadableDiagram (path reason : String)
  | badDiagram (path : String) (error : Error)
  | unreadableCases (path reason : String)
  | badCases (path : String) (error : Error)
  /-- Test cases were given both in a file and on the command line. -/
  | mixedCases
  | tooManyRounds
  deriving DecidableEq, Repr

def Problem.message : Problem → String
  | unreadableDiagram path reason => "failed to read diagram " ++ path ++ ": " ++ reason
  | badDiagram path error => "failed to load diagram " ++ path ++ ": " ++ error.message
  | unreadableCases path reason => "failed to read test cases " ++ path ++ ": " ++ reason
  | badCases path error => "failed to parse test cases " ++ path ++ ": " ++ error.message
  | mixedCases => "--input and --expect cannot be combined with --cases"
  | tooManyRounds => "gave up after too many rounds"

/-- The code that the program ends with. -/
inductive Exit where
  | success
  | failure
  | trouble
  /-- The command line was refused. -/
  | usage
  deriving DecidableEq, Repr

def Exit.code : Exit → Nat
  | success => 0
  | failure => 1
  | trouble | usage => 2

/-- Success or failure. -/
def Exit.ofBool (succeeded : Bool) : Exit :=
  if succeeded then success else failure

/-- The name of the session with the terminal. -/
def terminalSession : String := "stdio"

/-- More rounds than a machine gets through. -/
def roundLimit : Nat := 0x4000000000000000

def versionLine : String := "blockflow 0.1.0\n"

section Steps

variable {m : Type → Type} [Monad m]

/-- The diagram in a file. -/
def loadDiagram (host : Host m) (path : String) : m (Except Problem Diagram) := do
  match ← host.readFile path with
  | .error reason => pure (.error (.unreadableDiagram path reason))
  | .ok text => pure ((Diagram.ofText text).mapError (.badDiagram path))

/-- The test cases in a file. -/
def loadCases (host : Host m) (path : String) : m (Except Problem (List Case)) := do
  match ← host.readFile path with
  | .error reason => pure (.error (.unreadableCases path reason))
  | .ok text => pure ((Case.listOfText text).mapError (.badCases path))

/-- The test cases that the options ask for: those of a file, or the one that stands
on the command line, but not both. -/
def TestOptions.loadCases (host : Host m) (options : TestOptions) :
    m (Except Problem (List Case)) :=
  match options.cases with
  | none => pure (.ok [⟨"inline", options.inputs, options.expected, none⟩])
  | some path =>
    if options.inputs.isEmpty && options.expected.isEmpty then Cli.loadCases host path
    else pure (.error .mixedCases)

/-- The reports for the cases, within the limits of the options. -/
def TestOptions.explore (fuel : Nat) (options : TestOptions) (d : Diagram)
    (cases : List Case) : Except Problem (List (String × Report Rate)) :=
  match exploreSuite fuel d options.limits .silent cases with
  | some reports => .ok reports
  | none => .error .tooManyRounds

/-- What the program writes about the reports. -/
def TestOptions.output (options : TestOptions) (reports : List (String × Report Rate)) : String :=
  let shown := reports.map fun entry => (entry.1, entry.2.map Rate.percent)
  if options.json then Report.documents shown ++ "\n"
  else Report.summaries options.verbose shown

/-- Tells why the program could not do what it was told. -/
def giveUp (host : Host m) (problem : Problem) : m Exit := do
  host.warn ("error: " ++ problem.message)
  pure .trouble

/-- The command `test`. -/
def runTests (host : Host m) (fuel : Nat) (options : TestOptions) : m Exit := do
  match ← loadDiagram host options.diagram with
  | .error problem => giveUp host problem
  | .ok d =>
    match ← options.loadCases host with
    | .error problem => giveUp host problem
    | .ok cases =>
      match options.explore fuel d cases with
      | .error problem => giveUp host problem
      | .ok reports => do
        host.write (options.output reports)
        pure (.ofBool (allPassed Rate.isFull reports))

/-- The line about a thread that failed. -/
def failureLine (thread : ThreadOutcome) (failure : Failure) : String :=
  "thread " ++ toString thread.index ++ " failed: " ++ failure.message

/-- The command `run`. -/
@[specialize]
def runLive (host : Host m) (fuel : Nat) (path : String) : m Exit := do
  match ← loadDiagram host path with
  | .error problem => giveUp host problem
  | .ok d =>
    match ← d.run (host.console terminalSession) fuel with
    | none => giveUp host .tooManyRounds
    | some outcome => do
      for thread in outcome.failures do
        match thread.failure with
        | some failure => host.warn (failureLine thread failure)
        | none => pure ()
      pure (.ofBool outcome.isSuccess)

/-- The whole program. -/
@[specialize]
def program (host : Host m) (fuel : Nat) (words : List String) : m Exit :=
  match Command.ofWords? words with
  | none => pure .usage
  | some .version => do
    host.write versionLine
    pure .success
  | some (.run path) => runLive host fuel path
  | some (.test options) => runTests host fuel options

end Steps

end Flowchart.Cli
