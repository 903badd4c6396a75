import Flowchart.Document.Decode
import Flowchart.Document.Writer
import Flowchart.Error

/-!
# Limits of a search

A search can be told how many states to expand, how long a schedule may get, and
after how many expanded states to report its progress.
-/

namespace Flowchart

structure Limits where
  /-- No more states than this are expanded. -/
  maxStates : Option Nat
  /-- A schedule that gets this long without ending is given up. -/
  maxSteps : Option Nat
  progressInterval : Nat
  deriving DecidableEq, Repr

namespace Limits

/-- No limits, and a report of progress after every hundred states. -/
def standard : Limits := ⟨none, none, 100⟩

/-- The interval between reports of progress. An interval of zero counts as one. -/
def interval (limits : Limits) : Nat :=
  max 1 limits.progressInterval

/-- Whether no further state may be expanded after this many. -/
def stopAfter (limits : Limits) (expanded : Nat) : Bool :=
  limits.maxStates.any (· ≤ expanded)

/-- Whether a schedule of this length is given up. -/
def cuts (limits : Limits) (steps : Nat) : Bool :=
  limits.maxSteps.any (· ≤ steps)

/-- Whether a step of the search that has expanded this many states ends with a
report of progress. -/
def reportsAt (limits : Limits) (expanded : Nat) : Bool :=
  expanded % limits.interval = 0

/-! ## Documents -/

/-- Counts in documents must fit sixty-four bits. -/
def countLimit : Nat := 0x10000000000000000

def document (limits : Limits) : Document :=
  .object [
    ("maxStates", .optional .nat limits.maxStates),
    ("maxSteps", .optional .nat limits.maxSteps),
    ("progressInterval", .nat limits.progressInterval)]

/-- The limits of a document. A field that is missing keeps its standard value. -/
def ofDocument? (document : Document) : Option Limits := do
  let count := Document.natBelow? countLimit
  match ← document.fields? ["maxStates", "maxSteps", "progressInterval"] with
  | [maxStates, maxSteps, interval] =>
    return ⟨← Document.defaulted? standard.maxStates (Document.optional? count) maxStates,
      ← Document.defaulted? standard.maxSteps (Document.optional? count) maxSteps,
      ← Document.defaulted? standard.progressInterval count interval⟩
  | _ => none

/-- The limits that a text describes. -/
def ofText (text : String) : Except Error Limits :=
  match (Document.ofText? text).bind ofDocument? with
  | some limits => .ok limits
  | none => .error (.malformedDocument none)

end Limits

end Flowchart
