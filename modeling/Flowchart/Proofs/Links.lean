import Flowchart.Proofs.Explore.Independence
import Flowchart.Proofs.Expr.Faults

/-!
# Diagrams without dangling links

Validation looks at every link of a diagram once, before anything runs
(`validate_eq_ok_iff`). What it has found then holds of all that threads ever do, in any
order: a thread that runs is at a block that is there, and a thread that has failed did
so inside such a block, for a reason that has to do with what blocks do
(`anchored_replay`).

The invariant is about one cursor, since only the cursor of the thread that takes a step
changes. Where it goes is told by the block (`Diagram.frame_scripted`), and that validation
and execution mean the same successors is `Block.action_cases`.
-/

namespace Flowchart

/-- The errors of executing a block. -/
def Error.isOfBlock : Error → Bool
  | undeclared _ | inputExhausted => true
  | e => e.isOfEvaluation

/-- The errors of looking at a block, before anything is done. -/
def Error.isOfAction : Error → Bool
  | undeclared _ => true
  | e => e.isOfEvaluation

theorem Error.isOfAction_of_isOfEvaluation {e : Error} (h : e.isOfEvaluation = true) :
    e.isOfAction = true := by
  cases e <;> first | rfl | exact h

theorem Error.isOfBlock_of_isOfAction {e : Error} (h : e.isOfAction = true) :
    e.isOfBlock = true := by
  cases e <;> first | rfl | exact h

namespace Diagram

variable {d : Diagram}

/-! ## What validation means -/

/-- The diagram holds the blocks that it names. -/
structure Linked (d : Diagram) : Prop where
  entry : ∀ id ∈ d.threads, d.contains id = true
  successor : ∀ id block, d.block? id = some block → ∀ next ∈ block.successors,
    d.contains next = true

theorem mem_blockList {block : Block} : block ∈ d.blockList ↔ ∃ id, d.block? id = some block := by
  unfold blockList block?
  rw [List.mem_map]
  constructor
  · rintro ⟨⟨id, block⟩, hmem, rfl⟩
    exact ⟨id, Table.mem_entries.mp hmem⟩
  · rintro ⟨id, hblock⟩
    exact ⟨(id, block), Table.mem_entries.mpr hblock, rfl⟩

theorem mem_links {link : Link} :
    link ∈ d.links ↔ (∃ id ∈ d.threads, link = .entry id) ∨
      ∃ id block, d.block? id = some block ∧ ∃ next ∈ block.successors,
        link = .between block.id next := by
  rw [links, List.mem_append, List.mem_map, List.mem_flatMap]
  refine or_congr (exists_congr fun id => and_congr_right fun _ => eq_comm) ?_
  constructor
  · rintro ⟨block, hmem, hlink⟩
    obtain ⟨id, hblock⟩ := mem_blockList.mp hmem
    obtain ⟨next, hnext, rfl⟩ := List.mem_map.mp hlink
    exact ⟨id, block, hblock, next, hnext, rfl⟩
  · rintro ⟨id, block, hblock, next, hnext, rfl⟩
    exact ⟨block, mem_blockList.mpr ⟨id, hblock⟩, List.mem_map_of_mem hnext⟩

/-- A diagram is linked when no link dangles. -/
theorem dangling_eq_nil_iff : d.dangling = [] ↔ d.Linked := by
  rw [dangling, List.filter_eq_nil_iff]
  constructor
  · intro h
    refine ⟨fun id hmem => ?_, fun id block hblock next hnext => ?_⟩
    · simpa [Link.target] using h _ (mem_links.mpr (.inl ⟨id, hmem, rfl⟩))
    · simpa [Link.target] using h _ (mem_links.mpr (.inr ⟨id, block, hblock, next, hnext, rfl⟩))
  · intro h link hlink
    rcases mem_links.mp hlink with ⟨id, hmem, rfl⟩ | ⟨id, block, hblock, next, hnext, rfl⟩
    · simp [Link.target, h.entry id hmem]
    · simp [Link.target, h.successor id block hblock next hnext]

/-- **Validation accepts exactly the linked diagrams.** -/
theorem validate_eq_ok_iff : d.validate = .ok () ↔ d.Linked := by
  rw [← dangling_eq_nil_iff, validate]
  cases d.dangling <;> simp

end Diagram

/-! ## What a block can fail with -/

theorem assignAction_error {scope : Scope} {text : String} {next : BlockId} {e : Error}
    (h : assignAction scope text next = .error e) : e.isOfAction = true := by
  unfold assignAction at h
  split at h
  · cases h; rfl
  · dsimp only at h
    split at h
    · cases h; rfl
    · split at h
      · cases h; rfl
      · exact Error.isOfAction_of_isOfEvaluation
          ((Expr.withinEvaluation_evaluate _ _).map _ e h)

/-- Looking at a block fails with an error of evaluation, or for want of a variable. -/
theorem Block.action_error {scope : Scope} {block : Block} {e : Error}
    (h : block.action scope = .error e) : e.isOfAction = true := by
  cases block with
  | assign id next text => exact assignAction_error h
  | print id next template => cases h
  | input id next name =>
      replace h : (if (scope name).isNone then Except.error (Error.undeclared name)
        else .ok (Action.ask name next)) = .error e := h
      split at h
      · cases h; rfl
      · cases h
  | branch id condition _ _ | loop id condition _ _ =>
      exact Error.isOfAction_of_isOfEvaluation
        ((Expr.withinEvaluation_evaluateCondition condition.toList scope).map _ e h)
  | stop id next => cases h

/-- Performing an action fails only when it asks and no reply is left. -/
theorem Action.scripted_error {env : Environment} {script : Script} {action : Action} {e : Error}
    (h : (action.scripted env script).1.1 = .error e) : e = .inputExhausted := by
  cases action with
  | go next => cases h
  | assign name value next => cases h
  | print line next => cases h
  | ask name next =>
      unfold scripted at h
      dsimp only at h
      split at h
      · cases h; rfl
      · cases h

/-- A block that fails is named in the failure. -/
theorem Diagram.failure_scripted {d : Diagram} {id : BlockId} {block : Block}
    (h : d.block? id = some block) {env : Environment} {script : Script} {failure : Failure}
    (hfail : (d.scripted id env script).1.1 = .error failure) :
    failure.block = some id ∧ failure.error.isOfBlock = true := by
  rw [scripted_of_block h] at hfail
  cases haction : block.action env.scope with
  | error e =>
      rw [haction] at hfail
      obtain rfl := Except.error.inj hfail
      exact ⟨rfl, Error.isOfBlock_of_isOfAction (Block.action_error haction)⟩
  | ok action =>
      rw [haction] at hfail
      dsimp only at hfail
      cases houtcome : (action.scripted env script).1.1 with
      | ok next => rw [houtcome] at hfail; cases hfail
      | error e =>
          rw [houtcome] at hfail
          obtain rfl := Except.error.inj hfail
          exact ⟨rfl, by rw [Action.scripted_error houtcome]; rfl⟩

/-! ## Where threads stand -/

/-- A cursor is at a block of the diagram, or has ended, and if it has failed then inside
such a block and with an error of executing it. -/
structure Cursor.Anchored (d : Diagram) (c : Cursor) : Prop where
  running : ∀ id, c.control = .running id → d.contains id = true
  failed : ∀ failure, c.control = .failed failure →
    (∃ id, failure.block = some id ∧ d.contains id = true) ∧ failure.error.isOfBlock = true

namespace Replay

variable {d : Diagram}

theorem anchored_start (hd : d.Linked) (inputs : List String) :
    ∀ c ∈ (start d inputs).cursors, c.Anchored d := by
  intro c hmem
  obtain ⟨entry, hentry, rfl⟩ := List.mem_map.mp hmem
  refine ⟨fun id hid => ?_, fun failure hfail => by cases hfail⟩
  obtain rfl := Control.running.inj hid
  exact hd.entry _ hentry

/-- After the step of a block a thread is at one of its successors, or has ended there. -/
theorem anchored_after (hd : d.Linked) {id : BlockId} (h : d.contains id = true)
    (env : Environment) (script : Script) (steps : Nat) :
    (⟨.after (d.scripted id env script).1.1, steps⟩ : Cursor).Anchored d := by
  obtain ⟨block, hblock⟩ := Option.isSome_iff_exists.mp h
  have hframe := d.frame_scripted hblock env script
  cases houtcome : (d.scripted id env script).1.1 with
  | error failure =>
      refine ⟨fun next hnext => (by cases hnext), fun failure' hfail => ?_⟩
      obtain rfl := Control.failed.inj hfail
      obtain ⟨hlocated, herror⟩ := Diagram.failure_scripted hblock houtcome
      exact ⟨⟨id, hlocated, h⟩, herror⟩
  | ok next =>
      cases next with
      | none => exact ⟨fun _ hnext => (by cases hnext), fun _ hfail => (by cases hfail)⟩
      | some next =>
          refine ⟨fun next' hnext => ?_, fun _ hfail => by cases hfail⟩
          obtain rfl := Control.running.inj hnext
          exact hd.successor id block hblock _ (hframe.successor _ houtcome)

theorem anchored_step (hd : d.Linked) {r : Replay} (hr : ∀ c ∈ r.cursors, c.Anchored d)
    (thread : Nat) : ∀ c ∈ (r.step d thread).cursors, c.Anchored d := by
  rcases step_cases d r thread with ⟨-, hstep⟩ | ⟨c, id, hc, hcur, hstep⟩
  · rwa [hstep]
  · intro c' hmem
    rw [hstep] at hmem
    rcases List.mem_or_eq_of_mem_set hmem with hmem | rfl
    · exact hr c' hmem
    · refine anchored_after hd ((hr c (List.mem_of_getElem? hc)).running id ?_) _ _ _
      unfold Cursor.current? at hcur
      split at hcur
      · next hrun => rwa [Option.some.inj hcur] at hrun
      · cases hcur

theorem anchored_replay (hd : d.Linked) (inputs : List String) (order : List Nat) :
    ∀ c ∈ (d.replay inputs order).cursors, c.Anchored d := by
  induction order using List.reverseRecOn with
  | nil => exact anchored_start hd inputs
  | append_singleton order thread ih =>
      rw [Diagram.replay_append_singleton]
      exact anchored_step hd ih thread

end Replay

/-- **A validated diagram never dangles.** Validation succeeds exactly when every entry and
every successor is a block of the diagram. Whatever order its threads then step in, each
of them is anchored. -/
theorem Diagram.never_dangles (d : Diagram) :
    (d.validate = .ok () ↔ (∀ id ∈ d.threads, d.contains id = true) ∧
        ∀ id block, d.block? id = some block → ∀ next ∈ block.successors,
          d.contains next = true) ∧
      (d.validate = .ok () → ∀ inputs order, ∀ c ∈ (d.replay inputs order).cursors,
        c.Anchored d) := by
  refine ⟨?_, fun h inputs order => Replay.anchored_replay (validate_eq_ok_iff.mp h) inputs order⟩
  rw [validate_eq_ok_iff]
  exact ⟨fun h => ⟨h.entry, h.successor⟩, fun h => ⟨h.1, h.2⟩⟩

/-- One thread divides by zero while the other one goes on. -/
def divideAndAsk : Diagram where
  declared := [⟨"share", .int⟩]
  blocks := ⟨[(1, .assign 1 2 "share = 1 / share"), (2, .stop 2 none), (3, .input 3 2 "share")],
    by decide⟩
  threads := [1, 3]
  names_nodup := by decide
  id_of_mem := by decide

theorem never_dangles_divideAndAsk :
    divideAndAsk.validate = .ok () ∧
      (divideAndAsk.replay ["7"] [0, 1]).cursors =
        [⟨.failed ⟨.arithmetic .divisionByZero, some 1⟩, 1⟩, ⟨.running 2, 1⟩] ∧
      ∀ c ∈ (divideAndAsk.replay ["7"] [0, 1]).cursors, c.Anchored divideAndAsk := by
  have hvalid : divideAndAsk.validate = .ok () := by rfl
  exact ⟨hvalid, by decide +kernel, divideAndAsk.never_dangles.2 hvalid ["7"] [0, 1]⟩

end Flowchart
