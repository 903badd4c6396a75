import Flowchart.Console.Channel
import Flowchart.Proofs.Handles
import Flowchart.Proofs.Links

/-!
# Live runs and replays

A live run and a replay let the same blocks run, but with different variables and against
different consoles. The threads of a live run have handles on an environment, and a replay
has the environment itself; that makes no difference to any step (`Machine.step_crew`). A
live run sends events through a channel and waits for answers, and a replay reads prepared
replies and keeps a record. A channel mirrors a script (`Mirrors`) while it is open, its
answers are the replies to come, and its events of output are the lines written so far.
Against such a channel everything goes as it does against the script (`Mimics`), up to the
one error that tells them apart: where the replies are used up, the session is closed.

The simulation goes up through the program, one lemma for each function, from the two calls
of the console to the step of a machine, and from there with the handles to whole rounds
(`mimics_finish`). It holds for any number of threads that take turns. A single thread has
no other way to go, so its live run ends like its replay (`Diagram.run_of_replay`).
-/

namespace Flowchart

/-! ## The error that tells the consoles apart -/

/-- The error of a live run where a replay has this one. -/
def Error.live (session : String) : Error → Error
  | inputExhausted => sessionClosed session
  | e => e

def Failure.live (session : String) (failure : Failure) : Failure :=
  { failure with error := failure.error.live session }

def Control.live (session : String) : Control → Control
  | failed failure => failed (failure.live session)
  | control => control

def Cursor.live (session : String) (c : Cursor) : Cursor :=
  { c with control := c.control.live session }

def Machine.live (session : String) (machine : Machine) : Machine :=
  { machine with cursors := machine.cursors.map (Cursor.live session) }

section Live

variable {session : String}

/-- Looking at a block fails alike on air and off it. -/
theorem Error.live_of_isOfAction (session : String) {e : Error} (h : e.isOfAction = true) :
    e.live session = e := by
  cases e <;> first | rfl | exact absurd h (by decide)

theorem Failure.live_locate (session : String) (e : Error) (id : BlockId) :
    ((Failure.unlocated e).locate id).live session
      = (Failure.unlocated (e.live session)).locate id := rfl

theorem Control.live_after (outcome : Except Failure (Option BlockId)) :
    Control.after (outcome.mapError (Failure.live session))
      = (Control.after outcome).live session := by
  rcases outcome with failure | _ | id <;> rfl

@[simp] theorem Cursor.current?_live (c : Cursor) : (c.live session).current? = c.current? := by
  obtain ⟨control, steps⟩ := c
  cases control <;> rfl

@[simp] theorem Cursor.isRunning_live (c : Cursor) :
    (c.live session).isRunning = c.isRunning := by
  rw [isRunning, current?_live, isRunning]

@[simp] theorem Cursor.steps_live (c : Cursor) : (c.live session).steps = c.steps := rfl

@[simp] theorem Cursor.failure?_live (c : Cursor) :
    (c.live session).failure? = c.failure?.map (Failure.live session) := by
  obtain ⟨control, steps⟩ := c
  cases control <;> rfl

@[simp] theorem Machine.isOver_live (machine : Machine) :
    (machine.live session).isOver = machine.isOver := by
  simp [isOver, live, List.all_map, Function.comp_def]

theorem Machine.live_start (d : Diagram) : (start d).live session = start d := by
  simp only [start, live, List.map_map]
  rfl

theorem Machine.live_set (session : String) (machine : Machine) (env : Environment)
    (thread : Nat) (c : Cursor) :
    (⟨env, (machine.live session).cursors.set thread (c.live session)⟩ : Machine)
      = (⟨env, machine.cursors.set thread c⟩ : Machine).live session := by
  simp only [Machine.live, List.map_set]

end Live

/-! ## Channels that mirror scripts -/

/-- The session and the text of an event of output. -/
def Event.output? : Event → Option (String × String)
  | output session text => some (session, text)
  | request .. => none

/-- What was sent to be shown, the oldest text first. -/
def Channel.outputs (channel : Channel) : List (String × String) :=
  channel.events.filterMap Event.output?

/-- The channel will answer as the script does, and has been sent what the script has
recorded. -/
structure Mirrors (session : String) (script : Script) (channel : Channel) : Prop where
  isOpen : channel.isOpen = true
  answers : channel.answers = script.replies.map some
  outputs : channel.outputs = script.output.map fun line => (session, line)

theorem mirrors_start (session : String) (replies : List String) :
    Mirrors session (.start replies) (.start (replies.map some)) :=
  ⟨rfl, rfl, rfl⟩

/-- From every channel that mirrors the one script the action leads to this result, and to a
channel that mirrors the other script. -/
def Mimics {α : Type} (session : String) (action : StateM Channel α) (script : Script)
    (result : α) (script' : Script) : Prop :=
  ∀ channel, Mirrors session script channel →
    ∃ channel', action.run channel = (result, channel') ∧ Mirrors session script' channel'

namespace Mimics

variable {α β : Type} {session : String} {script script' script'' : Script}

theorem pure (a : α) : Mimics session (Pure.pure a) script a script :=
  fun channel h => ⟨channel, rfl, h⟩

theorem bind {action : StateM Channel α} {next : α → StateM Channel β} {a : α} {b : β}
    (h : Mimics session action script a script')
    (hnext : Mimics session (next a) script' b script'') :
    Mimics session (action >>= next) script b script'' := by
  intro channel hchannel
  obtain ⟨channel', hrun, hchannel'⟩ := h channel hchannel
  obtain ⟨channel'', hrun', hchannel''⟩ := hnext channel' hchannel'
  refine ⟨channel'', ?_, hchannel''⟩
  rw [StateT.run_bind, hrun]
  exact hrun'

theorem map {action : StateM Channel α} {a : α} (h : Mimics session action script a script')
    (f : α → β) : Mimics session (f <$> action) script (f a) script' := by
  rw [map_eq_pure_bind]
  exact h.bind (.pure _)

end Mimics

/-! ## The calls of the console -/

section Simulation

variable (session : String) {script : Script} {d : Diagram}

theorem mimics_write (line : String) :
    Mimics session ((Channel.console session).write line) script (.ok ()) (script.write line) := by
  intro channel h
  refine ⟨{ channel with events := channel.events ++ [.output session line] }, ?_, ?_⟩
  · show channel.write session line = _
    rw [Channel.write, if_pos h.isOpen]
  · refine ⟨h.isOpen, h.answers, ?_⟩
    have houtputs := h.outputs
    simp only [Channel.outputs] at houtputs ⊢
    simp [Script.write, List.filterMap_append, houtputs, Event.output?]

/-- A request gets the next reply; when there is none, it is dropped. -/
theorem mimics_ask (prompt : String) :
    Mimics session ((Channel.console session).ask prompt) script
      (script.next.1.mapError (Error.live session)) script.next.2 := by
  intro channel h
  refine ⟨{ channel with
    events := channel.events ++ [.request session prompt]
    answers := channel.answers.drop 1 }, ?_, ?_⟩
  · show channel.ask session prompt = _
    rw [Channel.ask, if_pos h.isOpen, h.answers]
    cases hreplies : script.replies <;> simp [Script.next, hreplies, Except.mapError, Error.live]
  · have houtputs : ({ channel with
        events := channel.events ++ [.request session prompt]
        answers := channel.answers.drop 1 } : Channel).outputs = channel.outputs := by
      simp [Channel.outputs, List.filterMap_append, Event.output?]
    refine ⟨h.isOpen, ?_, houtputs.trans ?_⟩
    · cases hreplies : script.replies <;> simp [Script.next, h.answers, hreplies]
    · cases hreplies : script.replies <;> simp [Script.next, h.outputs, hreplies]

/-! ## From actions to rounds -/

theorem mimics_perform {env : Environment} {action : Action} (h : action.Declared env.scope) :
    Mimics session (action.perform (Channel.console session) env) script
      ((action.scripted env script).1.1.mapError (Error.live session),
        (action.scripted env script).1.2)
      (action.scripted env script).2 := by
  cases action with
  | go next => exact .pure _
  | assign name value next =>
      rw [Action.perform, Store.assignAndGo_of_isSome (h name rfl)]
      exact .pure _
  | print line next => exact .bind (mimics_write session line) (.pure _)
  | ask name next =>
      refine .bind (mimics_ask session (prompt name)) ?_
      unfold Action.scripted Script.next
      cases script.replies with
      | nil => exact .pure _
      | cons reply rest =>
          dsimp only [Except.mapError]
          rw [Store.assignAndGo_of_isSome (h name rfl)]
          exact .pure _

theorem mimics_step (id : BlockId) (env : Environment) :
    Mimics session (d.step (Channel.console session) id env) script
      ((d.scripted id env script).1.1.mapError (Failure.live session),
        (d.scripted id env script).1.2)
      (d.scripted id env script).2 := by
  unfold Diagram.step Diagram.block
  cases hblock : d.block? id with
  | none =>
      rw [d.scripted_of_unknown hblock]
      exact .pure _
  | some block =>
      rw [d.scripted_of_block hblock]
      dsimp only
      rw [Environment.store_scope]
      cases haction : block.action env.scope with
      | error e =>
          -- the block fails before it gets to the console
          dsimp only
          rw [Except.mapError, Failure.live_locate,
            Error.live_of_isOfAction session (Block.action_error haction)]
          exact .pure _
      | ok action =>
          refine .bind (mimics_perform session (Block.declared_of_action haction)) ?_
          dsimp only
          cases (action.scripted env script).1.1 <;> exact .pure _

/-- A step against the channel is the step of the replay. -/
theorem mimics_machineStep (r : Replay) (thread : Nat) :
    Mimics session ((r.machine.live session).step d (Channel.console session) thread) r.script
      ((r.step d thread).machine.live session) (r.step d thread).script := by
  have hlive : (r.machine.live session).cursors[thread]?
      = r.machine.cursors[thread]?.map (Cursor.live session) := by
    simp [Machine.live]
  unfold Machine.step
  cases hc : r.machine.cursors[thread]? with
  | none =>
      rw [Replay.step_of_absent hc, hlive, hc]
      exact .pure _
  | some c =>
      rw [hlive, hc]
      dsimp only [Option.map_some]
      unfold Cursor.advance
      cases hcur : c.current? with
      | none =>
          obtain ⟨hlt, hget⟩ := List.getElem?_eq_some_iff.mp hc
          rw [Replay.step_of_ended hc hcur, Cursor.current?_live, hcur]
          refine .bind (.pure _) ?_
          dsimp only
          rw [Machine.live_set session, ← hget, List.set_getElem_self hlt]
          exact .pure _
      | some id =>
          rw [Replay.step_of_running hc hcur, Cursor.current?_live, hcur]
          refine .bind (.bind (mimics_step session id _) (.pure _)) ?_
          dsimp only
          rw [Control.live_after, ← Machine.live_set session r.machine]
          exact .pure _

/-- The threads of an order take their steps through their handles as in the replay. -/
theorem mimics_order (r : Replay) (order : List Nat) :
    Mimics session
      (order.foldlM (fun crew thread => crew.step d (Channel.console session) thread)
        (r.machine.live session).crew)
      r.script ((r.run d order).machine.live session).crew (r.run d order).script := by
  induction order generalizing r with
  | nil => exact .pure _
  | cons thread order ih =>
      have hstep := (mimics_machineStep (d := d) session r thread).map Machine.crew
      rw [← Machine.step_crew] at hstep
      rw [List.foldlM_cons]
      exact .bind hstep (ih (r.step d thread))

/-! ## Runs -/

/-- So many rounds of all threads. -/
def Diagram.rounds (d : Diagram) (n : Nat) : List Nat :=
  (List.replicate n (List.range d.threads.length)).flatten

/-- **A live run goes like a replay in rounds.** When so many rounds end all threads, the
live run ends, and with what the replay has come to. -/
theorem mimics_finish {r : Replay} (hr : r.machine.cursors.length = d.threads.length) {n : Nat}
    (hover : (r.run d (d.rounds n)).machine.isOver = true) {fuel : Nat} (hfuel : n < fuel) :
    Mimics session ((r.machine.live session).crew.finish d (Channel.console session) fuel)
      r.script (some ((r.run d (d.rounds n)).machine.live session).crew)
      (r.run d (d.rounds n)).script := by
  induction fuel generalizing r n with
  | zero => exact absurd hfuel (Nat.not_lt_zero n)
  | succ fuel ih =>
      rw [Crew.finish, Machine.isOver_crew, Machine.isOver_live]
      split
      · next hended =>
        -- the rounds that are left do nothing
        rw [Replay.run_of_isOver hended]
        exact .pure _
      · next hgoes =>
        cases n with
        | zero => exact absurd hover hgoes
        | succ n =>
            have hrounds : r.run d (d.rounds (n + 1))
                = (r.run d (List.range d.threads.length)).run d (d.rounds n) := by
              simp [Replay.run, Diagram.rounds, List.replicate_succ, List.foldl_append]
            have hlength : (r.machine.live session).crew.cursors.length = d.threads.length :=
              (List.length_map _).trans hr
            have hround : Mimics session
                ((r.machine.live session).crew.round d (Channel.console session)) r.script
                ((r.run d (List.range d.threads.length)).machine.live session).crew
                (r.run d (List.range d.threads.length)).script := by
              rw [Crew.round, hlength]
              exact mimics_order session r _
            rw [hrounds] at hover ⊢
            exact .bind hround (ih ((Replay.length_cursors_run d r _).trans hr) hover (by omega))

/-- A live run in which the threads take turns, and the replay of its rounds. -/
theorem mimics_run {replies : List String} {n : Nat}
    (hover : (d.replay replies (d.rounds n)).machine.isOver = true) {fuel : Nat}
    (hfuel : n < fuel) :
    Mimics session (d.run (Channel.console session) fuel) (.start replies)
      (some (((d.replay replies (d.rounds n)).machine.live session).crew.outcome d))
      (d.replay replies (d.rounds n)).script := by
  have hstart : (Replay.start d replies).machine.cursors.length = d.threads.length :=
    List.length_map _
  have hfinish := mimics_finish session hstart hover hfuel
  rw [Replay.start, Machine.live_start, ← Crew.start_eq_crew] at hfinish
  exact .bind hfinish (.pure _)

end Simulation

/-! ## One thread -/

namespace Diagram

variable {d : Diagram} {entry : BlockId}

/-- The rounds of one thread are its steps. -/
theorem rounds_of_threads (hd : d.threads = [entry]) (n : Nat) :
    d.rounds n = List.replicate n 0 := by
  rw [rounds, hd]
  exact List.flatten_replicate_singleton

theorem exists_cursor (hd : d.threads = [entry]) (inputs : List String) (order : List Nat) :
    ∃ cursor, (d.replay inputs order).cursors = [cursor] := by
  refine List.length_eq_one_iff.mp ?_
  rw [Replay.cursors, length_cursors_replay, hd, List.length_singleton]

/-- **A live run of one thread is its replay on air.** Once the thread has ended in a replay
with some replies, the live run ends whose requests get these replies and no others: after
as many steps, with the same environment, with the same texts sent to the session, and with
the same failure, if it has failed, except that the session is closed where the replay has
no more input. -/
theorem run_of_replay (hd : d.threads = [entry]) (session : String) (replies : List String)
    {n : Nat} (hended : (d.replay replies (List.replicate n 0)).machine.isRunning 0 = false)
    {fuel : Nat} (hfuel : n < fuel) :
    ∃ cursor channel, (d.replay replies (List.replicate n 0)).cursors = [cursor] ∧
      (d.run (Channel.console session) fuel).run (Channel.start (replies.map some)) =
        (some ⟨[⟨0, entry, cursor.steps, cursor.failure?.map (Failure.live session)⟩],
          (d.replay replies (List.replicate n 0)).env⟩, channel) ∧
      channel.outputs =
        (d.replay replies (List.replicate n 0)).output.map fun line => (session, line) := by
  rw [← rounds_of_threads hd] at hended ⊢
  obtain ⟨cursor, hcursor⟩ := exists_cursor hd replies (d.rounds n)
  have hcursors : (d.replay replies (d.rounds n)).machine.cursors = [cursor] := hcursor
  have hover : (d.replay replies (d.rounds n)).machine.isOver = true := by
    rw [Machine.isRunning, hcursors] at hended
    rw [Machine.isOver, hcursors]
    simpa using hended
  have houtcome : ((d.replay replies (d.rounds n)).machine.live session).crew.outcome d
      = ⟨[⟨0, entry, cursor.steps, cursor.failure?.map (Failure.live session)⟩],
          (d.replay replies (d.rounds n)).env⟩ := by
    rw [Crew.outcome, Machine.snapshot_crew]
    simp [Machine.crew, Machine.live, hd, hcursors, Replay.env]
  obtain ⟨channel, hrun, hmirrors⟩ := mimics_run session hover hfuel _ (mirrors_start session replies)
  rw [houtcome] at hrun
  exact ⟨cursor, channel, hcursor, hrun, hmirrors.outputs⟩

end Diagram

/-- Asks for a number, prints it, and asks again. -/
def echo : Diagram where
  declared := [⟨"reply", .int⟩]
  blocks := ⟨[(1, .input 1 2 "reply"), (2, .print 2 1 "got reply")], by decide⟩
  threads := [1]
  names_nodup := by decide
  id_of_mem := by decide

/-- After two replies the third request is dropped. -/
theorem run_of_replay_echo :
    (echo.replay ["7", "8"] [0, 0, 0, 0, 0]).machine.isRunning 0 = false ∧
      ∃ channel, (echo.run (Channel.console "s") 6).run (Channel.start [some "7", some "8"]) =
        (some ⟨[⟨0, 1, 5, some ⟨.sessionClosed "s", some 1⟩⟩],
          (echo.replay ["7", "8"] [0, 0, 0, 0, 0]).env⟩, channel) ∧
      channel.outputs = [("s", "got 7"), ("s", "got 8")] := by
  have hended : (echo.replay ["7", "8"] (List.replicate 5 0)).machine.isRunning 0 = false := by
    decide +kernel
  have hcursors : (echo.replay ["7", "8"] (List.replicate 5 0)).cursors
      = [⟨.failed ⟨.inputExhausted, some 1⟩, 5⟩] := by
    decide +kernel
  have houtput : (echo.replay ["7", "8"] (List.replicate 5 0)).output = ["got 7", "got 8"] := by
    decide +kernel
  obtain ⟨cursor, channel, hcursor, hrun, houtputs⟩ :=
    Diagram.run_of_replay (d := echo) rfl "s" ["7", "8"] hended (by decide : 5 < 6)
  obtain rfl : cursor = _ := List.singleton_inj.mp (hcursor.symm.trans hcursors)
  rw [houtput] at houtputs
  exact ⟨hended, channel, hrun, houtputs⟩

end Flowchart
