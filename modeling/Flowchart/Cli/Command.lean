import Flowchart.Cli.Arguments
import Flowchart.Decimal.Numeral
import Flowchart.Explore.Limits

/-!
# Commands

The program has two commands: `run` lets a diagram run against the terminal, and
`test` searches its schedules. A command line that is neither is refused as a whole.
-/

namespace Flowchart.Cli

/-- What to test, and how far to search. -/
structure TestOptions where
  diagram : String
  /-- The file with the test cases, if they do not stand on the command line. -/
  cases : Option String
  inputs : List String
  expected : List String
  maxStates : Option Nat
  maxSteps : Option Nat
  json : Bool
  verbose : Bool
  deriving DecidableEq, Repr

/-- The limits of the search. -/
def TestOptions.limits (options : TestOptions) : Limits :=
  { Limits.standard with maxStates := options.maxStates, maxSteps := options.maxSteps }

inductive Command where
  | version
  | run (diagram : String)
  | test (options : TestOptions)
  deriving DecidableEq, Repr

/-- A path must not be empty. -/
def path? (text : String) : Option String :=
  if text.isEmpty then none else some text

/-- A count that fits sixty-four bits, with an optional plus sign. -/
def count? (text : String) : Option Nat :=
  let digits := match text.toList with
    | '+' :: digits => digits
    | digits => digits
  (Decimal.readNat? digits).filter (· < Limits.countLimit)

/-- An option that may be missing, but must be well-formed if it is there. -/
def optional? {α : Type} (read : String → Option α) : Option String → Option (Option α)
  | none => some none
  | some text => (read text).map some

def runOptions : Options := ⟨[], [], fun _ => none⟩

def testOptions : Options where
  valued := ["cases", "input", "expect", "max-states", "max-steps"]
  switches := ["json", "verbose"]
  short? letter := if letter = 'v' then some "verbose" else none

/-- The options that must not be repeated. -/
def singleOptions : List String :=
  ["cases", "max-states", "max-steps", "json", "verbose"]

/-- The options of `test` that the words after it give. -/
def TestOptions.ofArguments? (a : Arguments) : Option TestOptions :=
  if singleOptions.all a.atMostOnce then
    match a.operands with
    | [diagram] => do
      return {
        diagram := ← path? diagram
        cases := ← optional? path? (a.value? "cases")
        inputs := a.valuesOf "input"
        expected := a.valuesOf "expect"
        maxStates := ← optional? count? (a.value? "max-states")
        maxSteps := ← optional? count? (a.value? "max-steps")
        json := a.has "json"
        verbose := a.has "verbose" }
    | _ => none
  else none

/-- Whether a word asks for the version of the program. -/
def asksVersion (word : String) : Bool :=
  match Word.of word with
  | .long name none => name = "version"
  | .short ('V' :: _) => true
  | _ => false

/-- The command that a command line gives. -/
def Command.ofWords? : List String → Option Command
  | [] => none
  | word :: rest =>
    if asksVersion word then some version
    else
      match word with
      | "run" => do
        match (← runOptions.read? .empty rest).operands with
        | [diagram] => (path? diagram).map run
        | _ => none
      | "test" => do
        (TestOptions.ofArguments? (← testOptions.read? .empty rest)).map test
      | _ => none

end Flowchart.Cli
