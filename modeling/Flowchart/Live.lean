import Flowchart.Environment.Shared
import Flowchart.Machine

/-!
# Live runs

A live run lets all threads of a diagram go until each has ended. Every thread gets a
handle of its own on one environment, and does all its work through this handle. The
threads take turns, one step each; a thread that fails does not keep the others from
going on. At the end the run looks at the environment through the handle that it has
kept for itself.
-/

namespace Flowchart

/-- How one thread of a live run ended. -/
structure ThreadOutcome where
  index : Nat
  entry : BlockId
  steps : Nat
  failure : Option Failure
  deriving DecidableEq, Repr

/-- How a live run ended. -/
structure RunOutcome where
  threads : List ThreadOutcome
  env : Environment
  deriving DecidableEq

namespace RunOutcome

/-- The threads that failed. -/
def failures (r : RunOutcome) : List ThreadOutcome :=
  r.threads.filter (·.failure.isSome)

def isSuccess (r : RunOutcome) : Bool :=
  r.failures.isEmpty

end RunOutcome

/-- The threads of a live run. The first handle is that of the run, and the others are
those of the threads in their order. -/
structure Crew where
  sharing : Sharing
  cursors : List Cursor

namespace Crew

/-- A handle for each thread, with all threads at their entries and all variables at
their first values. -/
def start (d : Diagram) : Crew where
  sharing := d.threads.foldl (fun sharing _ => sharing.clone 0)
    (.start (.initial d.declared))
  cursors := d.threads.map Cursor.start

/-- The handle of a thread. -/
def handle (crew : Crew) (thread : Nat) : Handle :=
  ⟨thread + 1, crew.sharing⟩

/-- The environment as the run sees it. -/
def snapshot (crew : Crew) : Environment :=
  crew.sharing.environment 0

/-- Whether every thread has ended. -/
def isOver (crew : Crew) : Bool :=
  crew.cursors.all fun c => !c.isRunning

section Steps

variable {m : Type → Type} [Monad m]

/-- Lets one thread take one step through its handle. -/
@[specialize]
def step (d : Diagram) (console : Console m) (thread : Nat) (crew : Crew) : m Crew :=
  match crew.cursors[thread]? with
  | none => pure crew
  | some cursor => do
    let (cursor, handle) ← cursor.advance d console (crew.handle thread)
    pure ⟨handle.sharing, crew.cursors.set thread cursor⟩

/-- One step of each thread. -/
@[specialize]
def round (d : Diagram) (console : Console m) (crew : Crew) : m Crew :=
  (List.range crew.cursors.length).foldlM (fun crew thread => crew.step d console thread) crew

/-- Rounds until every thread has ended, if that takes no more than so many. -/
@[specialize]
def finish (d : Diagram) (console : Console m) : (fuel : Nat) → Crew → m (Option Crew)
  | 0, _ => pure none
  | fuel + 1, crew => do
    if crew.isOver then pure (some crew)
    else finish d console fuel (← crew.round d console)

end Steps

/-- How the threads ended. -/
def outcome (d : Diagram) (crew : Crew) : RunOutcome where
  threads := (d.threads.zip crew.cursors).mapIdx fun i (entry, cursor) =>
    ⟨i, entry, cursor.steps, cursor.failure?⟩
  env := crew.snapshot

end Crew

/-- Runs all threads of a diagram against a console, if they end within so many
rounds. -/
@[specialize]
def Diagram.run {m : Type → Type} [Monad m] (d : Diagram) (console : Console m) (fuel : Nat) :
    m (Option RunOutcome) := do
  let ended ← (Crew.start d).finish d console fuel
  pure (ended.map (Crew.outcome d))

end Flowchart
