import Flowchart.Console
import Flowchart.Machine

/-!
# Replaying a schedule

An order is a list of threads, of which each takes one step in turn. Replaying an
order from the start, against a script, always leads to the same place; that is
why the search can name its states by their orders.
-/

namespace Flowchart

/-- The threads and the script after some order. -/
structure Replay where
  machine : Machine
  script : Script
  deriving DecidableEq

namespace Replay

def start (d : Diagram) (inputs : List String) : Replay :=
  ⟨.start d, .start inputs⟩

/-- Lets one thread take one step. -/
def step (d : Diagram) (r : Replay) (thread : Nat) : Replay :=
  let (machine, script) := Id.run ((r.machine.step d Script.console thread).run r.script)
  ⟨machine, script⟩

/-- Lets the threads of an order take their steps. -/
def run (d : Diagram) (r : Replay) (order : List Nat) : Replay :=
  order.foldl (step d) r

def env (r : Replay) : Environment := r.machine.env

def cursors (r : Replay) : List Cursor := r.machine.cursors

/-- The lines written so far. -/
def output (r : Replay) : List String := r.script.output

end Replay

/-- The place that an order leads to from the start. -/
def Diagram.replay (d : Diagram) (inputs : List String) (order : List Nat) : Replay :=
  (Replay.start d inputs).run d order

theorem Diagram.replay_append_singleton (d : Diagram) (inputs : List String) (order : List Nat)
    (thread : Nat) :
    d.replay inputs (order ++ [thread]) = (d.replay inputs order).step d thread := by
  simp [Diagram.replay, Replay.run, List.foldl_append]

end Flowchart
