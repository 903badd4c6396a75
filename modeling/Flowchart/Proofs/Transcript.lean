import Flowchart.Proofs.Effect
import Flowchart.Proofs.Explore.Independence
import Flowchart.Proofs.History

/-!
# Accounting for the script

All threads draw from one list of replies and write to one list of lines. Whatever the order,
the replies that were given to the questions that succeeded, together with those that are left,
are the replies of the start, and the output is what the print blocks that succeeded have
written (`Diagram.script_accounted`).

What a step exchanges with the script is told without a look at what becomes of the script: its
block, whether it succeeds, and for a question the reply that was next. That the script changes
by exactly this (`Script.Changes`) is a law of one step (`Replay.changes_step`) which a run
inherits (`Replay.changes_run`).
-/

namespace Flowchart

/-- What passes between a thread and the script in a step. -/
inductive Exchange where
  /-- A reply was given for a variable. -/
  | answered (name reply : String)
  /-- A line was written. -/
  | printed (line : String)
  deriving DecidableEq, Repr

namespace Exchange

def reply? : Exchange → Option String
  | answered _ reply => some reply
  | printed _ => none

def line? : Exchange → Option String
  | answered .. => none
  | printed line => some line

end Exchange

/-- A script changes by some exchanges: the replies that were given are gone from the front, and
the lines that were written stand at the end. -/
structure Script.Changes (before : Script) (exchanges : List Exchange) (after : Script) :
    Prop where
  replies : before.replies = exchanges.filterMap Exchange.reply? ++ after.replies
  output : after.output = before.output ++ exchanges.filterMap Exchange.line?

theorem Script.Changes.refl (script : Script) : script.Changes [] script :=
  ⟨rfl, (List.append_nil _).symm⟩

theorem Script.Changes.trans {before middle after : Script} {first second : List Exchange}
    (h : before.Changes first middle) (h' : middle.Changes second after) :
    before.Changes (first ++ second) after := by
  constructor
  · rw [List.filterMap_append, List.append_assoc, ← h'.replies]
    exact h.replies
  · rw [List.filterMap_append, ← List.append_assoc, ← h.output]
    exact h'.output

namespace Replay

variable {d : Diagram} {r : Replay} {thread : Nat}

/-! ## Exchanges -/

/-- The block that a thread executes with its next step. -/
def block? (d : Diagram) (r : Replay) (thread : Nat) : Option Block := do
  let c ← r.cursors[thread]?
  let id ← c.current?
  d.block? id

/-- Whether a thread takes a step and has not failed after it. -/
def succeeds (d : Diagram) (r : Replay) (thread : Nat) : Bool :=
  r.machine.isRunning thread && !(r.step d thread).cursors[thread]?.any Cursor.isFailed

/-- What the step of a thread exchanges with the script, if it succeeds. -/
def exchange? (d : Diagram) (r : Replay) (thread : Nat) : Option Exchange :=
  if r.succeeds d thread then
    match r.block? d thread with
    | some (.input _ _ name) => r.script.next.1.toOption.map (.answered name)
    | some (.print _ _ template) => some (.printed (r.env.line template))
    | _ => none
  else none

theorem block?_eq {c : Cursor} {id : BlockId} (hc : r.cursors[thread]? = some c)
    (hid : c.current? = some id) : r.block? d thread = d.block? id := by
  simp [block?, hc, hid]

/-- A thread that runs succeeds with its step when the block does. -/
theorem succeeds_eq {c : Cursor} {id : BlockId} (hc : r.cursors[thread]? = some c)
    (hid : c.current? = some id) :
    r.succeeds d thread = (d.scripted id r.env r.script).1.1.toBool := by
  have hrun : r.machine.isRunning thread = true := by
    unfold Machine.isRunning
    exact (Option.any_eq_true _ _).mpr ⟨c, hc, by rw [Cursor.isRunning, hid]; rfl⟩
  have hstep : (r.step d thread).cursors
      = r.cursors.set thread ⟨.after (d.scripted id r.env r.script).1.1, c.steps + 1⟩ :=
    congrArg Replay.cursors (step_of_running hc hid)
  rw [succeeds, hrun, hstep, List.getElem?_set_self (List.getElem?_eq_some_iff.mp hc).1]
  cases (d.scripted id r.env r.script).1.1 with
  | error failure => rfl
  | ok next => cases next <;> rfl

/-! ## One step -/

/-- A step that does not succeed leaves the script alone, and one that does has the effect of
its block. -/
theorem step_effect (d : Diagram) (r : Replay) (thread : Nat) :
    (r.succeeds d thread = false ∧ (r.step d thread).script = r.script) ∨
      ∃ block next, r.block? d thread = some block ∧ r.succeeds d thread = true ∧
        block.Effect r.env r.script next (r.step d thread).env (r.step d thread).script := by
  rcases step_cases d r thread with ⟨hended, hstep⟩ | ⟨c, id, hc, hid, hstep⟩
  · left
    refine ⟨?_, by rw [hstep]⟩
    rw [succeeds, hended]
    rfl
  · have hsucceeds : r.succeeds d thread = (d.scripted id r.env r.script).1.1.toBool :=
      succeeds_eq hc hid
    rcases hresult : d.scripted id r.env r.script with ⟨⟨outcome, env⟩, script⟩
    have hafter : (r.step d thread).env = env ∧ (r.step d thread).script = script := by
      rw [hstep]
      exact ⟨congrArg (·.1.2) hresult, congrArg (·.2) hresult⟩
    rw [hresult] at hsucceeds
    cases outcome with
    | error failure =>
        left
        refine ⟨hsucceeds, ?_⟩
        have htrace := Diagram.scripted_of_error (congrArg (·.1.1) hresult)
        rw [hresult] at htrace
        exact hafter.2.trans (congrArg (·.2) htrace)
    | ok next =>
        right
        obtain ⟨block, hblock, heffect⟩ := Diagram.scripted_eq_ok_iff.mp hresult
        rw [hafter.1, hafter.2]
        exact ⟨block, next, (block?_eq hc hid).trans hblock, hsucceeds, heffect⟩

/-- The question of a thread that succeeds is answered with the next reply. -/
theorem exchange?_of_input {id next : BlockId} {name reply : String} {rest : List String}
    (hblock : r.block? d thread = some (.input id next name))
    (hsucceeds : r.succeeds d thread = true) (hreplies : r.script.replies = reply :: rest) :
    r.exchange? d thread = some (.answered name reply) := by
  have hnext : r.script.next.1 = .ok reply := by rw [Script.next, hreplies]
  rw [exchange?, hsucceeds, hblock]
  dsimp only
  rw [hnext]
  rfl

/-- What a step that succeeds does to the script is what it exchanges with it. -/
theorem changes_of_effect {block : Block} {next : Option BlockId} {env : Environment}
    {script : Script} (hblock : r.block? d thread = some block)
    (hsucceeds : r.succeeds d thread = true) (h : block.Effect r.env r.script next env script) :
    r.script.Changes (r.exchange? d thread).toList script := by
  cases h with
  | input hdeclared hreplies =>
      rw [exchange?_of_input hblock hsucceeds hreplies]
      exact ⟨hreplies, (List.append_nil _).symm⟩
  | print =>
      rw [exchange?, hsucceeds, hblock]
      exact ⟨rfl, rfl⟩
  | _ =>
      rw [exchange?, hsucceeds, hblock]
      exact .refl _

/-- **A step accounts for the script.** -/
theorem changes_step (d : Diagram) (r : Replay) (thread : Nat) :
    r.script.Changes (r.exchange? d thread).toList (r.step d thread).script := by
  rcases step_effect d r thread with ⟨hfails, hscript⟩ | ⟨block, next, hblock, hsucceeds, heffect⟩
  · rw [hscript, exchange?, hfails]
    exact .refl _
  · exact changes_of_effect hblock hsucceeds heffect

/-- The reply to the question of a thread that succeeds becomes the value of its variable. -/
theorem exists_answer {id next : BlockId} {name : String}
    (hblock : r.block? d thread = some (.input id next name))
    (hsucceeds : r.succeeds d thread = true) :
    ∃ reply, r.exchange? d thread = some (.answered name reply) ∧
      (r.step d thread).env = r.env.assign name (Value.ofInput reply) ∧
      (r.step d thread).env.scope name = some (Value.ofInput reply) := by
  rcases step_effect d r thread with ⟨hfails, -⟩ | ⟨block, next', hblock', -, heffect⟩
  · rw [hfails] at hsucceeds
    exact Bool.noConfusion hsucceeds
  · obtain rfl := Option.some.inj (hblock.symm.trans hblock')
    obtain ⟨hdeclared, reply, rest, hreplies, henv⟩ := heffect.of_input
    refine ⟨reply, exchange?_of_input hblock hsucceeds hreplies, henv, ?_⟩
    obtain ⟨value, hvalue⟩ := Option.isSome_iff_exists.mp hdeclared
    rw [henv, Environment.scope_assign, if_pos rfl, hvalue]
    rfl

/-- The place with nothing changed but one thread, which has failed with its next step. -/
def withFailure (r : Replay) (thread : Nat) (c : Cursor) (failure : Failure) : Replay :=
  ⟨⟨r.env, r.cursors.set thread ⟨.failed failure, c.steps + 1⟩⟩, r.script⟩

/-- With no reply left, a thread that asks for a declared variable fails, and nothing else
happens. -/
theorem step_of_exhausted {c : Cursor} {id id' next : BlockId} {name : String}
    (hc : r.cursors[thread]? = some c) (hid : c.current? = some id)
    (hblock : d.block? id = some (.input id' next name))
    (hdeclared : (r.env.scope name).isSome = true) (hempty : r.script.replies = []) :
    r.step d thread = r.withFailure thread c ⟨.inputExhausted, some id⟩ := by
  have hresult : d.scripted id r.env r.script
      = ((.error ⟨.inputExhausted, some id⟩, r.env), r.script) := by
    rw [Diagram.scripted_of_block hblock, Block.action_input hdeclared]
    simp only [Action.scripted, hempty]
    rfl
  have hstep : r.step d thread =
      let result := d.scripted id r.env r.script
      ⟨⟨result.1.2, r.cursors.set thread ⟨.after result.1.1, c.steps + 1⟩⟩, result.2⟩ :=
    step_of_running hc hid
  rw [hstep, hresult]
  rfl

/-! ## Runs -/

/-- **A run accounts for the script.** -/
theorem changes_run (d : Diagram) (r : Replay) (order : List Nat) :
    r.script.Changes (r.along d (exchange? d) order) (r.run d order).script := by
  induction order generalizing r with
  | nil => exact .refl _
  | cons thread order ih => exact (changes_step d r thread).trans (ih (r.step d thread))

end Replay

namespace Diagram

/-- What the steps of an order have exchanged with the script, in the order of the steps. -/
def transcript (d : Diagram) (inputs : List String) (order : List Nat) : List Exchange :=
  (Replay.start d inputs).along d (Replay.exchange? d) order

/-- The replies of the start are those that were given, in this order, and those that are
left. -/
theorem replies_transcript (d : Diagram) (inputs : List String) (order : List Nat) :
    inputs = (d.transcript inputs order).filterMap Exchange.reply?
      ++ (d.replay inputs order).script.replies :=
  (Replay.changes_run d (.start d inputs) order).replies

theorem output_transcript (d : Diagram) (inputs : List String) (order : List Nat) :
    (d.replay inputs order).output = (d.transcript inputs order).filterMap Exchange.line? :=
  (Replay.changes_run d (.start d inputs) order).output

/-- Once the replies are used up, they stay so. -/
theorem replies_append_eq_nil {d : Diagram} {inputs : List String} {order : List Nat}
    (h : (d.replay inputs order).script.replies = []) (later : List Nat) :
    (d.replay inputs (order ++ later)).script.replies = [] := by
  have hchanges := Replay.changes_run d (d.replay inputs order) later
  rw [← replay_append] at hchanges
  exact (List.append_eq_nil_iff.mp (hchanges.replies.symm.trans h)).2

/-- What becomes of the replies and of the output along an order. -/
structure Accounted (d : Diagram) (inputs : List String) (order : List Nat) : Prop where
  /-- The replies that were given are the first ones, in their order. -/
  given : (d.transcript inputs order).filterMap Exchange.reply?
    = inputs.take (inputs.length - (d.replay inputs order).script.remaining)
  /-- The replies that are left are those after the last one that was given. -/
  left : (d.replay inputs order).script.replies
    = inputs.drop ((d.transcript inputs order).filterMap Exchange.reply?).length
  /-- None is lost, and none is given twice: no more are given than there are, and the difference
  is what is left. -/
  remaining : ((d.transcript inputs order).filterMap Exchange.reply?).length
    + (d.replay inputs order).script.remaining = inputs.length
  /-- A question that succeeds next gets a reply, and its variable has the value of it. -/
  bound : ∀ thread id next name,
    (d.replay inputs order).block? d thread = some (.input id next name) →
    (d.replay inputs order).succeeds d thread = true →
    ∃ reply, (d.replay inputs order).exchange? d thread = some (.answered name reply) ∧
      ((d.replay inputs order).step d thread).env
        = (d.replay inputs order).env.assign name (Value.ofInput reply) ∧
      ((d.replay inputs order).step d thread).env.scope name = some (Value.ofInput reply)
  /-- The output is what was written, in the order of the steps. -/
  output : (d.replay inputs order).output
    = (d.transcript inputs order).filterMap Exchange.line?
  /-- Nothing that was written is ever changed. -/
  kept : ∀ later, (d.replay inputs order).output <+: (d.replay inputs (order ++ later)).output
  /-- Once no reply is left, each question about a declared variable fails its own thread, at its
  block, and nothing else happens. -/
  exhausted : (d.replay inputs order).script.remaining = 0 →
    ∀ later thread c id id' next name,
      (d.replay inputs (order ++ later)).cursors[thread]? = some c →
      c.control = .running id → d.block? id = some (.input id' next name) →
      name ∈ d.declared.map (·.name) →
      (d.replay inputs (order ++ later)).step d thread
        = (d.replay inputs (order ++ later)).withFailure thread c ⟨.inputExhausted, some id⟩

/-- **The script is accounted for.** Replies and lines are neither lost nor doubled, whatever
the order in which the threads step. -/
theorem script_accounted (d : Diagram) (inputs : List String) (order : List Nat) :
    d.Accounted inputs order := by
  have hreplies := d.replies_transcript inputs order
  have hlength := congrArg List.length hreplies
  rw [List.length_append] at hlength
  constructor
  case given =>
    have htaken : inputs.length - (d.replay inputs order).script.remaining
        = ((d.transcript inputs order).filterMap Exchange.reply?).length := by
      rw [Script.remaining]
      omega
    rw [htaken]
    exact List.prefix_iff_eq_take.mp ⟨_, hreplies.symm⟩
  case left =>
    have hdrop := congrArg
      (List.drop ((d.transcript inputs order).filterMap Exchange.reply?).length) hreplies
    rw [List.drop_left' rfl] at hdrop
    exact hdrop.symm
  case remaining => exact hlength.symm
  case bound =>
    intro thread id next name hblock hsucceeds
    exact Replay.exists_answer hblock hsucceeds
  case output => exact d.output_transcript inputs order
  case kept =>
    intro later
    have hchanges := Replay.changes_run d (d.replay inputs order) later
    rw [← replay_append] at hchanges
    exact ⟨_, hchanges.output.symm⟩
  case exhausted =>
    intro hempty later thread c id id' next name hc hrun hblock hdeclared
    refine Replay.step_of_exhausted hc (by rw [Cursor.current?, hrun]) hblock ?_ ?_
    · exact ((Replay.sound_replay d inputs (order ++ later)).declared name).mpr hdeclared
    · exact replies_append_eq_nil (List.length_eq_zero_iff.mp hempty) later

end Diagram

/-- Both threads ask, and the first one prints what it was told. -/
def askBoth : Diagram where
  declared := [⟨"first", .int⟩, ⟨"second", .int⟩]
  blocks := ⟨[(1, .input 1 2 "first"), (2, .print 2 3 "got first"), (3, .stop 3 none),
    (4, .input 4 3 "second")], by decide⟩
  threads := [1, 4]
  names_nodup := by decide
  id_of_mem := by decide

/-- There is one reply for two questions: the thread that asks later fails. -/
theorem script_accounted_askBoth :
    askBoth.transcript ["7"] [0, 0] = [.answered "first" "7", .printed "got 7"] ∧
      (askBoth.replay ["7"] [0, 0]).output = ["got 7"] ∧
      (askBoth.replay ["7"] [0]).step askBoth 1
        = (askBoth.replay ["7"] [0]).withFailure 1 (.start 4) ⟨.inputExhausted, some 4⟩ := by
  have htranscript : askBoth.transcript ["7"] [0, 0]
      = [.answered "first" "7", .printed "got 7"] := by decide +kernel
  refine ⟨htranscript, ?_, ?_⟩
  · rw [(askBoth.script_accounted ["7"] [0, 0]).output, htranscript]
    rfl
  · exact (askBoth.script_accounted ["7"] [0]).exhausted (by decide +kernel) [] 1 (.start 4) 4 4 3
      "second" (by decide +kernel) rfl rfl (by decide)

end Flowchart
