import Flowchart.Console

/-!
# Consoles over a channel

A channel carries the events of a run to whoever drives the session: lines of
output, and requests for input, which wait for a reply. A request that is dropped
without a reply fails with a closed session, and once the channel itself is closed
everything does.
-/

namespace Flowchart

/-- What a run wants from whoever drives its session. -/
inductive Event where
  | output (session text : String)
  | request (session prompt : String)
  deriving DecidableEq, Repr

/-- A channel, and the answers that requests on it will get. -/
structure Channel where
  isOpen : Bool
  /-- The events that have not been received yet, the oldest first. -/
  events : List Event
  /-- The answers to the coming requests; where there is none, or it is empty, the
  request is dropped. -/
  answers : List (Option String)
  deriving DecidableEq, Repr

namespace Channel

def start (answers : List (Option String)) : Channel := ⟨true, [], answers⟩

/-- Closes the channel; events that were not received are lost. -/
def close (c : Channel) : Channel :=
  { c with isOpen := false, events := [] }

/-- Receives the oldest event. -/
def receive? (c : Channel) : Option (Event × Channel) :=
  match c.events with
  | [] => none
  | event :: rest => some (event, { c with events := rest })

/-- Sends a line of output. -/
def write (session : String) (c : Channel) (text : String) : Except Error Unit × Channel :=
  if c.isOpen then (.ok (), { c with events := c.events ++ [.output session text] })
  else (.error (.sessionClosed session), c)

/-- Sends a request, and takes the next answer. -/
def ask (session : String) (c : Channel) (prompt : String) : Except Error String × Channel :=
  if c.isOpen then
    let c' := { c with
      events := c.events ++ [.request session prompt]
      answers := c.answers.drop 1 }
    match c.answers with
    | some answer :: _ => (.ok answer, c')
    | _ => (.error (.sessionClosed session), c')
  else (.error (.sessionClosed session), c)

/-- One session of the channel as a console. -/
def console (session : String) : Console (StateM Channel) where
  write text := fun c => c.write session text
  ask prompt := fun c => c.ask session prompt

end Channel

end Flowchart
