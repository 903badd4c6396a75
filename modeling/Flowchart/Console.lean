import Flowchart.Error

/-!
# Consoles

A console is what a running block can do to the world outside: write a line, and
ask for one. Both can fail. What lies behind a console is a monad, so the same
blocks run against a script, against a channel, and against a terminal.

A script answers every request for input from a list of replies that was prepared
before the run, and records every line of output. It has no other state, so a run
that starts from the same script always goes the same way.
-/

namespace Flowchart

/-- How lines are written and asked for. -/
structure Console (m : Type → Type) where
  write : (line : String) → m (Except Error Unit)
  ask : (prompt : String) → m (Except Error String)

/-- Replies that are still to come, and lines that were written. -/
structure Script where
  replies : List String
  output : List String
  deriving DecidableEq, Repr

namespace Script

/-- A script that has not been used yet. -/
def start (replies : List String) : Script := ⟨replies, []⟩

/-- Records a line of output. -/
def write (s : Script) (line : String) : Script :=
  { s with output := s.output ++ [line] }

/-- The next reply, if one is left, and the script without it. -/
def next (s : Script) : Except Error String × Script :=
  match s.replies with
  | [] => (.error .inputExhausted, s)
  | reply :: rest => (.ok reply, { s with replies := rest })

/-- How many replies are left. -/
def remaining (s : Script) : Nat :=
  s.replies.length

/-- The script as a console. The prompt makes no difference to the reply. -/
def console : Console (StateM Script) where
  write line := fun s => (.ok (), s.write line)
  ask _ := fun s => s.next

end Script

end Flowchart
