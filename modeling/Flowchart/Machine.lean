import Flowchart.Action
import Flowchart.Diagram.Basic

/-!
# Threads at work

A cursor is where a thread stands: at a block that comes next, finished, or failed,
together with the number of steps it has taken. The step that fails counts too. A
machine is one environment and the cursors of all threads that share it; its only
move is one step of one thread. A thread that has ended does not move any more.
-/

namespace Flowchart

/-- Executes the block with an identifier. A failure names the block, unless there
is no such block. -/
@[specialize]
def Diagram.step {m : Type → Type} [Monad m] {σ : Type} [Store σ] (d : Diagram)
    (console : Console m) (id : BlockId) (store : σ) :
    m (Except Failure (Option BlockId) × σ) :=
  match d.block id with
  | .error e => pure (.error (.unlocated e), store)
  | .ok block =>
    match block.action (Store.scope store) with
    | .error e => pure (.error ((Failure.unlocated e).locate id), store)
    | .ok action => do
      let (outcome, store) ← action.perform console store
      pure (outcome.mapError fun e => (Failure.unlocated e).locate id, store)

/-- Where a thread stands. -/
inductive Control where
  /-- The next step executes this block. -/
  | running (id : BlockId)
  | finished
  | failed (failure : Failure)
  deriving DecidableEq, Repr

/-- Where a thread stands after a step with the given outcome. -/
def Control.after : Except Failure (Option BlockId) → Control
  | .ok (some id) => running id
  | .ok none => finished
  | .error failure => failed failure

/-- A thread on its way. -/
structure Cursor where
  control : Control
  steps : Nat
  deriving DecidableEq, Repr

namespace Cursor

/-- A thread that is about to execute its first block. -/
def start (entry : BlockId) : Cursor := ⟨.running entry, 0⟩

/-- The block that the next step executes. -/
def current? (c : Cursor) : Option BlockId :=
  match c.control with
  | .running id => some id
  | _ => none

def isRunning (c : Cursor) : Bool :=
  c.current?.isSome

/-- The failure that ended the thread. -/
def failure? (c : Cursor) : Option Failure :=
  match c.control with
  | .failed failure => some failure
  | _ => none

def isFailed (c : Cursor) : Bool :=
  c.failure?.isSome

/-- Takes one step. A thread that has ended stays as it is, and the step does not
count. -/
@[specialize]
def advance {m : Type → Type} [Monad m] {σ : Type} [Store σ] (d : Diagram) (console : Console m)
    (c : Cursor) (store : σ) : m (Cursor × σ) :=
  match c.current? with
  | none => pure (c, store)
  | some id => do
    let (outcome, store) ← d.step console id store
    pure (⟨.after outcome, c.steps + 1⟩, store)

end Cursor

/-- Threads that share an environment. -/
structure Machine where
  env : Environment
  cursors : List Cursor
  deriving DecidableEq

namespace Machine

/-- All threads of a diagram at their entries, and all variables at their first
values. -/
def start (d : Diagram) : Machine :=
  ⟨Environment.initial d.declared, d.threads.map Cursor.start⟩

/-- Lets one thread take one step. A thread that does not exist takes none. -/
@[specialize]
def step {m : Type → Type} [Monad m] (d : Diagram) (console : Console m) (thread : Nat)
    (machine : Machine) : m Machine :=
  match machine.cursors[thread]? with
  | none => pure machine
  | some cursor => do
    let (cursor, env) ← cursor.advance d console machine.env
    pure ⟨env, machine.cursors.set thread cursor⟩

/-- Whether the thread exists and has not ended. -/
def isRunning (machine : Machine) (thread : Nat) : Bool :=
  machine.cursors[thread]?.any Cursor.isRunning

/-- Whether every thread has ended. -/
def isOver (machine : Machine) : Bool :=
  machine.cursors.all fun c => !c.isRunning

/-- Whether no thread has failed. -/
def isClean (machine : Machine) : Bool :=
  machine.cursors.all fun c => !c.isFailed

end Machine

end Flowchart
