import Flowchart.Explore.Limits
import Flowchart.Explore.Queue
import Flowchart.Explore.Replay
import Flowchart.Explore.Tally

/-!
# Searching all schedules

The search goes through the schedules of a diagram by their length. A state is
expanded by letting each thread that still runs take one step, in the order of the
threads. A state in which no thread runs is the end of a run and is counted; a
state that has reached the length limit is given up; any other state joins the end
of the queue.

An observer can end the search early, at the next state or at a report of
progress. What it sees is the number of expanded states and the reports it was
given, and so whatever it does can be told as a function of these.
-/

namespace Flowchart

/-- A state that waits to be expanded. -/
structure Pending where
  /-- The threads that took the steps up to here. -/
  order : List Nat
  /-- The threads that still run. -/
  live : List Nat
  state : Replay

namespace Pending

/-- The state from which the search starts. -/
def root (d : Diagram) (inputs : List String) : Pending :=
  ⟨[], List.range d.threads.length, .start d inputs⟩

/-- The state after one more step of a thread. Only that thread can have ended. -/
def child (d : Diagram) (p : Pending) (thread : Nat) : Pending :=
  let state := p.state.step d thread
  ⟨p.order ++ [thread],
    p.live.filter fun other => other ≠ thread || state.machine.isRunning other, state⟩

end Pending

/-- Someone who can end a search early. -/
structure Observer where
  /-- Whether the search ends before the next state is expanded, by the number of
  states expanded and the reports given so far, the latest first. -/
  stops : (expanded : Nat) → (reports : List (Report Rate)) → Bool
  /-- Whether the search ends after a report, by the reports given so far, the
  latest first. -/
  ends : (reports : List (Report Rate)) → Bool

/-- The observer who never interferes. -/
def Observer.silent : Observer := ⟨fun _ _ => false, fun _ => false⟩

/-- What is searched, and how. -/
structure Task where
  diagram : Diagram
  inputs : List String
  expected : List String
  limits : Limits
  observer : Observer

/-- A search on its way. -/
structure Search where
  waiting : Queue Pending
  tally : Tally
  /-- How many states have been expanded. -/
  expanded : Nat
  /-- The reports of progress, the latest first. -/
  reports : List (Report Rate)
  /-- Whether the search was ended early. -/
  halted : Bool

namespace Search

def start (task : Task) : Search :=
  ⟨.singleton (.root task.diagram task.inputs), .empty, 0, [], false⟩

/-- Takes a state into account that was reached for the first time. -/
def visit (task : Task) (s : Search) (p : Pending) : Search :=
  if p.live.isEmpty then
    { s with
      tally := s.tally.record p.order.length (p.state.output = task.expected)
        p.state.machine.isClean }
  else if task.limits.cuts p.order.length then
    { s with tally := s.tally.recordCut }
  else
    { s with waiting := s.waiting.push p }

/-- Visits every state that is one step away. -/
def expand (task : Task) (s : Search) (p : Pending) : Search :=
  p.live.foldl (fun s thread => s.visit task (p.child task.diagram thread))
    { s with expanded := s.expanded + 1 }

/-- Reports progress if it is time to, which may end the search. -/
def announce (task : Task) (s : Search) : Search :=
  if task.limits.reportsAt s.expanded then
    let reports := s.tally.report false :: s.reports
    { s with reports := reports, halted := task.observer.ends reports }
  else s

/-- One round: the first state that waits is expanded, unless the search ends
first. There is no round after the search has ended. -/
def next? (task : Task) (s : Search) : Option Search :=
  if s.halted then none
  else
    match s.waiting.pop? with
    | none => none
    | some (p, rest) =>
      -- a state at which the search ends is lost from the queue, but not expanded
      let s := { s with waiting := rest }
      if task.observer.stops s.expanded s.reports || task.limits.stopAfter s.expanded then
        some { s with halted := true }
      else
        some ((s.expand task p).announce task)

/-- Goes on until there is no further round. -/
def run (task : Task) : (fuel : Nat) → Search → Option Search
  | 0, _ => none
  | fuel + 1, s =>
    match s.next? task with
    | none => some s
    | some s => run task fuel s

/-- The report of a search that has ended. -/
def report (s : Search) : Report Rate :=
  s.tally.report (s.halted || 0 < s.tally.truncated)

end Search

/-- The search for a task, if it ends within so many rounds. -/
def Task.search (fuel : Nat) (task : Task) : Option Search :=
  Search.run task fuel (Search.start task)

/-- The report of the search for a task, if it ends within so many rounds. -/
def Task.explore (fuel : Nat) (task : Task) : Option (Report Rate) :=
  (task.search fuel).map Search.report

end Flowchart
