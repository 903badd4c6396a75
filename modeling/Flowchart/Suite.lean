import Flowchart.Decimal.Layout
import Flowchart.Explore.Search

/-!
# Test cases

A test case is a list of replies and the lines that a run should print for them.
Cases come in documents of two shapes: a record with the list `testCases`, or one
case by itself. The first shape is tried first. Lines may be given as numbers or
truth values and are then taken as their text.
-/

namespace Flowchart

/-- Replies, and the lines that they should lead to. -/
structure Case where
  name : String
  input : List String
  expected : List String
  /-- The greatest length of a schedule, where the search sets none of its own. -/
  maxSteps : Option Nat
  deriving DecidableEq, Repr

namespace Case

def document (c : Case) : Document :=
  .object ([
    ("name", .str c.name),
    ("input", .array (c.input.map .str)),
    ("expectedOutput", .array (c.expected.map .str))]
    ++ (c.maxSteps.map fun n => ("maxSteps", Document.nat n)).toList)

/-- The line that an item stands for. -/
def line? : Document → Option String
  | .str text => some text
  | .number n => some (String.ofList (Document.Number.chars n))
  | .bool b => some (if b then "true" else "false")
  | _ => none

def ofDocument? (document : Document) : Option Case := do
  match ← document.fields? ["name", "input", "expectedOutput", "maxSteps"] with
  | [name, input, expected, maxSteps] =>
    return ⟨← Document.defaulted? "" Document.str? name,
      ← Document.defaulted? [] (Document.list? line?) input,
      ← Document.required? (Document.list? line?) expected,
      ← Document.defaulted? none (Document.optional? (Document.natBelow? Limits.countLimit))
        maxSteps⟩
  | _ => none

/-- The case under its own name, or named for its place if it has none. -/
def named (place : Nat) (c : Case) : Case :=
  if c.name.isEmpty then { c with name := "case-" ++ toString place } else c

/-- The cases of a record with the list `testCases`, which must be an object. -/
def ofSuite? : Document → Option (List Case)
  | .object entries => do
    match ← (Document.object entries).fields? ["testCases"] with
    | [cases] => Document.required? (Document.list? ofDocument?) cases
    | _ => none
  | _ => none

/-- The cases of a document that is read in full, in either shape. -/
def listOfDocument? (document : Document) : Option (List Case) :=
  if document.isPlain Document.depthLimit then
    match ofSuite? document with
    | some cases => some cases
    | none => (ofDocument? document).map fun c => [c]
  else none

/-- The cases that a text describes, each with a name. -/
def listOfText (text : String) : Except Error (List Case) :=
  match (Document.ofText? text).bind listOfDocument? with
  | some cases => .ok (cases.mapIdx fun i c => c.named (i + 1))
  | none => .error (.malformedDocument none)

/-- The search for a case. Its own length limit counts only where none is set. -/
def task (d : Diagram) (limits : Limits) (observer : Observer) (c : Case) : Task where
  diagram := d
  inputs := c.input
  expected := c.expected
  limits := { limits with maxSteps := limits.maxSteps.or c.maxSteps }
  observer := observer

end Case

/-- The report for each case, under its name, if all searches end within so many
rounds. -/
def exploreSuite (fuel : Nat) (d : Diagram) (limits : Limits) (observer : Observer)
    (cases : List Case) : Option (List (String × Report Rate)) :=
  cases.mapM fun c => ((c.task d limits observer).explore fuel).map fun report => (c.name, report)

/-- Whether every case matched on every schedule that was searched. -/
def allPassed {ρ : Type} (full : ρ → Bool) (reports : List (String × Report ρ)) : Bool :=
  reports.all fun entry => entry.2.passes full

end Flowchart
