import Flowchart.Decimal.Layout
import Flowchart.Document.Writer
import Flowchart.Explore.Tally

/-!
# Reports as text

A report is shown in a few lines for the eye, or as one object of a document for a
program. Both show rates in percent.
-/

namespace Flowchart.Report

/-- Text pushed to the right by blanks, to a least width. -/
def padLeft (width : Nat) (text : List Char) : List Char :=
  List.replicate (width - text.length) ' ' ++ text

/-- The line of one rate. -/
def rateLine (steps : Nat) (rate : Float) : String :=
  "  <= " ++ String.ofList (padLeft 4 (Nat.toDigits 10 steps)) ++ " steps: "
    ++ String.ofList (padLeft 6 (Decimal.fixed 2 rate)) ++ "%\n"

/-- The first line: the overall rate, of how many runs, and the longest of them. -/
def headline (name : String) (r : Report Float) : String :=
  name ++ ": " ++ String.ofList (Decimal.fixed 1 (r.overall?.getD 0)) ++ "% of "
    ++ toString r.total ++ " runs matched (max " ++ toString r.maxSteps ++ " steps)\n"

/-- The lines for what did not go to the end. -/
def warnings (r : Report Float) : String :=
  (if r.completed < r.total then
    "  " ++ toString (r.total - r.completed) ++ " runs stopped on an error\n" else "")
  ++ (if 0 < r.truncated then
    "  " ++ toString r.truncated ++ " schedules cut at the step limit\n" else "")
  ++ (if r.interrupted then "  search interrupted; results are partial\n" else "")

/-- The report in lines, on demand with the rate for each number of steps. -/
def summary (name : String) (verbose : Bool) (r : Report Float) : String :=
  let rates := if verbose then r.rates.entries.map fun entry => rateLine entry.1 entry.2 else []
  r.headline name ++ r.warnings ++ String.join rates

/-- The report as one object. -/
def document (name : String) (r : Report Float) : Document :=
  .object [
    ("name", .str name),
    ("successRateByStepCount", .object (r.rates.entries.map fun entry =>
      (toString entry.1, .number (.double entry.2)))),
    ("maxStepCount", .nat r.maxSteps),
    ("totalRuns", .nat r.total),
    ("completedRuns", .nat r.completed),
    ("truncatedRuns", .nat r.truncated),
    ("interrupted", .bool r.interrupted)]

/-- The reports one after the other, as lines. -/
def summaries (verbose : Bool) (reports : List (String × Report Float)) : String :=
  String.join (reports.map fun entry => entry.2.summary entry.1 verbose)

/-- The reports as one document, in the order of the cases. -/
def documents (reports : List (String × Report Float)) : String :=
  (Document.array (reports.map fun entry => entry.2.document entry.1)).indentedText

end Flowchart.Report
