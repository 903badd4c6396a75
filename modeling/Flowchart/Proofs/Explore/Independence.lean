import Flowchart.Proofs.Explore.Enumeration
import Flowchart.Proofs.Footprint
import Mathlib.Data.List.Perm.Basic

/-!
# Threads that share nothing

When no thread writes a variable that occurs in a text of another one, and at most one
thread asks and at most one prints, the schedule makes no difference: all complete
schedules lead to the same place (`Separate.replay_eq`), so a search finds that all
runs match or that none does.

Steps are not swapped one by one. What a thread sees of the machine (`SameView`) is its
own cursor, the variables in its own texts, and the end of the script that it uses. A
step of another thread does not change what it sees, and its own step depends on what
it sees only. So what a thread sees after an order is what it sees after as many steps
of its own and nobody else's (`Separate.sameView_replay`), and that does not depend on
the order at all.
-/

namespace Flowchart

namespace Diagram

/-! ## Where threads come to -/

/-- The blocks that a thread can come to. -/
inductive Visits (d : Diagram) (thread : Nat) : BlockId → Prop where
  | entry {id : BlockId} : d.threads[thread]? = some id → Visits d thread id
  | next {id next : BlockId} {block : Block} :
      Visits d thread id → d.block? id = some block → next ∈ block.successors →
      Visits d thread next

/-- The blocks that a thread can execute. -/
def Executes (d : Diagram) (thread : Nat) (block : Block) : Prop :=
  ∃ id, d.Visits thread id ∧ d.block? id = some block

/-- Whether the region holds the entry of the thread and is never left. -/
def confines (d : Diagram) (thread : Nat) (region : List BlockId) : Bool :=
  d.threads[thread]?.all region.contains &&
    (region.filterMap d.block?).all fun block => block.successors.all region.contains

/-- A region that a thread never leaves holds all its blocks. -/
theorem Executes.mem_of_confines {d : Diagram} {thread : Nat} {block : Block}
    (h : d.Executes thread block) {region : List BlockId}
    (hregion : d.confines thread region = true) : block ∈ region.filterMap d.block? := by
  obtain ⟨hentry, hclosed⟩ := Bool.and_eq_true_iff.mp hregion
  obtain ⟨id, hvisits, hblock⟩ := h
  have hmem : id ∈ region := by
    clear hblock
    induction hvisits with
    | entry h =>
        rw [h] at hentry
        exact List.contains_iff_mem.mp hentry
    | next _ hblock hnext ih =>
        have hinside := List.all_eq_true.mp hclosed _ (List.mem_filterMap.mpr ⟨_, ih, hblock⟩)
        exact List.contains_iff_mem.mp (List.all_eq_true.mp hinside _ hnext)
  exact List.mem_filterMap.mpr ⟨id, hmem, hblock⟩

/-- The names that occur in the texts of a thread, also as parts of other words. -/
def Mentions (d : Diagram) (thread : Nat) (name : String) : Prop :=
  ∃ block text, d.Executes thread block ∧ block.text? = some text ∧ name.toList <:+: text.toList

def Asks (d : Diagram) (thread : Nat) : Prop :=
  ∃ block, d.Executes thread block ∧ block.asks = true

def Prints (d : Diagram) (thread : Nat) : Prop :=
  ∃ block, d.Executes thread block ∧ block.prints = true

/-- Threads that share nothing: no variable that one can write occurs in a text of another,
and the two ends of the script have one user each at most. -/
structure Separate (d : Diagram) : Prop where
  apart : ∀ {i j block name}, i ≠ j → d.Executes i block → block.target? = some name →
    name ∈ d.declared.map (·.name) → ¬d.Mentions j name
  asks : ∀ {i j}, d.Asks i → d.Asks j → i = j
  prints : ∀ {i j}, d.Prints i → d.Prints j → i = j

end Diagram

/-- A step that is taken is the step of a block, and any other step does nothing. -/
theorem Replay.step_cases (d : Diagram) (r : Replay) (thread : Nat) :
    (r.machine.isRunning thread = false ∧ r.step d thread = r) ∨
      ∃ c id, r.machine.cursors[thread]? = some c ∧ c.current? = some id ∧
        r.step d thread =
          let result := d.scripted id r.machine.env r.script
          ⟨⟨result.1.2, r.machine.cursors.set thread ⟨.after result.1.1, c.steps + 1⟩⟩,
            result.2⟩ := by
  by_cases hrun : r.machine.isRunning thread = true
  · right
    obtain ⟨c, id, hc, hid⟩ := Machine.exists_of_isRunning hrun
    exact ⟨c, id, hc, hid, step_of_running hc hid⟩
  · rw [Bool.not_eq_true] at hrun
    exact .inl ⟨hrun, step_of_not_running hrun⟩

/-! ## Invariants of all replays -/

/-- What is so in every replay: threads are at blocks that they can come to, and the
variables are the declared ones. -/
structure Replay.Sound (d : Diagram) (r : Replay) : Prop where
  inPlace : ∀ {thread c id}, r.machine.cursors[thread]? = some c → c.current? = some id →
    d.Visits thread id
  declared : ∀ name, (r.machine.env.scope name).isSome = true ↔ name ∈ d.declared.map (·.name)

namespace Replay

variable {d : Diagram} {r r' : Replay} {i j : Nat}

theorem sound_start (d : Diagram) (inputs : List String) : (start d inputs).Sound d where
  declared := Environment.isSome_scope_initial d.declared
  inPlace {thread c id} hc hcur := by
    have hstart : (d.threads.map Cursor.start)[thread]? = some c := hc
    rw [List.getElem?_map] at hstart
    obtain ⟨entry, hentry, rfl⟩ := Option.map_eq_some_iff.mp hstart
    obtain rfl := Option.some.inj hcur
    exact .entry hentry

theorem current?_after {outcome : Except Failure (Option BlockId)} {steps : Nat} {id : BlockId}
    (h : (⟨.after outcome, steps⟩ : Cursor).current? = some id) : outcome = .ok (some id) := by
  unfold Control.after Cursor.current? at h
  cases outcome with
  | error failure => exact absurd h (by simp)
  | ok next =>
      cases next with
      | none => exact absurd h (by simp)
      | some id' => simpa using h

theorem Sound.step (h : r.Sound d) (thread : Nat) : (r.step d thread).Sound d := by
  rcases step_cases d r thread with ⟨-, hstep⟩ | ⟨c, id, hc, hcur, hstep⟩
  · rwa [hstep]
  · have hvisits := h.inPlace hc hcur
    constructor
    case declared =>
      intro name
      rw [← h.declared, hstep]
      cases hblock : d.block? id with
      | none => rw [d.scripted_of_unknown hblock]
      | some block => rw [(d.frame_scripted hblock _ _).declared]
    case inPlace =>
      intro other c' id' hc' hcur'
      -- only the cursor of the thread itself has moved, to a successor of its block
      by_cases heq : other = thread
      · subst heq
        rw [hstep] at hc'
        dsimp only at hc'
        rw [List.getElem?_set_self (List.getElem?_eq_some_iff.mp hc).1] at hc'
        obtain rfl := Option.some.inj hc'
        have houtcome := current?_after hcur'
        cases hblock : d.block? id with
        | none =>
            rw [d.scripted_of_unknown hblock] at houtcome
            exact absurd houtcome (by simp)
        | some block =>
            exact hvisits.next hblock ((d.frame_scripted hblock _ _).successor id' houtcome)
      · rw [getElem?_cursors_step_of_ne heq] at hc'
        exact h.inPlace hc' hcur'

theorem sound_replay (d : Diagram) (inputs : List String) (order : List Nat) :
    (d.replay inputs order).Sound d := by
  induction order using List.reverseRecOn with
  | nil => exact sound_start d inputs
  | append_singleton order thread ih =>
      rw [Diagram.replay_append_singleton]
      exact ih.step thread

/-- A step does nothing to what the threads share, or it is framed by a block of its
thread. -/
theorem Sound.framed_step (hr : r.Sound d) (thread : Nat) :
    ((r.step d thread).machine.env = r.machine.env ∧ (r.step d thread).script = r.script) ∨
      ∃ block outcome, d.Executes thread block ∧
        block.Framed r.machine.env r.script
          ((outcome, (r.step d thread).machine.env), (r.step d thread).script) := by
  rcases step_cases d r thread with ⟨-, hstep⟩ | ⟨c, id, hc, hcur, hstep⟩
  · exact .inl (by rw [hstep]; exact ⟨rfl, rfl⟩)
  · rw [hstep]
    cases hblock : d.block? id with
    | none => exact .inl (by rw [d.scripted_of_unknown hblock]; exact ⟨rfl, rfl⟩)
    | some block =>
        exact .inr ⟨block, _, ⟨id, hr.inPlace hc hcur, hblock⟩, d.frame_scripted hblock _ _⟩

/-- What no step changes is as it was at the start. -/
theorem eq_start_of_step {β : Type} {f : Replay → β}
    (h : ∀ r thread, r.Sound d → f (r.step d thread) = f r) (inputs : List String)
    (order : List Nat) : f (d.replay inputs order) = f (start d inputs) := by
  induction order using List.reverseRecOn with
  | nil => rfl
  | append_singleton order thread ih =>
      rw [Diagram.replay_append_singleton, h _ thread (sound_replay d inputs order), ih]

/-- A variable that no thread writes keeps its first value. -/
theorem scope_replay_of_unwritten {name : String}
    (h : ∀ i block, d.Executes i block → block.target? ≠ some name) (inputs : List String)
    (order : List Nat) :
    (d.replay inputs order).machine.env.scope name = (start d inputs).machine.env.scope name := by
  refine eq_start_of_step (f := fun r => r.machine.env.scope name) (fun r thread hr => ?_) _ _
  rcases hr.framed_step thread with ⟨henv, -⟩ | ⟨block, outcome, hexecutes, hframe⟩
  · simp only [henv]
  · exact hframe.scope name (h thread block hexecutes)

/-- When no thread asks, no reply is taken. -/
theorem replies_replay_of_not_asks (h : ∀ i, ¬d.Asks i) (inputs : List String)
    (order : List Nat) :
    (d.replay inputs order).script.replies = (start d inputs).script.replies := by
  refine eq_start_of_step (f := fun r => r.script.replies) (fun r thread hr => ?_) _ _
  rcases hr.framed_step thread with ⟨-, hscript⟩ | ⟨block, outcome, hexecutes, hframe⟩
  · simp only [hscript]
  · exact hframe.replies (Bool.eq_false_iff.mpr fun hasks => h thread ⟨block, hexecutes, hasks⟩)

/-- When no thread prints, no line is written. -/
theorem output_replay_of_not_prints (h : ∀ i, ¬d.Prints i) (inputs : List String)
    (order : List Nat) :
    (d.replay inputs order).script.output = (start d inputs).script.output := by
  refine eq_start_of_step (f := fun r => r.script.output) (fun r thread hr => ?_) _ _
  rcases hr.framed_step thread with ⟨-, hscript⟩ | ⟨block, outcome, hexecutes, hframe⟩
  · simp only [hscript]
  · exact hframe.output (Bool.eq_false_iff.mpr fun hprints => h thread ⟨block, hexecutes, hprints⟩)

/-! ## What a thread sees -/

/-- Two states that look the same to a thread. -/
structure SameView (d : Diagram) (thread : Nat) (r r' : Replay) : Prop where
  cursor : r.machine.cursors[thread]? = r'.machine.cursors[thread]?
  scope : ∀ name, d.Mentions thread name → r.machine.env.scope name = r'.machine.env.scope name
  replies : d.Asks thread → r.script.replies = r'.script.replies
  output : d.Prints thread → r.script.output = r'.script.output

theorem SameView.refl (d : Diagram) (thread : Nat) (r : Replay) : SameView d thread r r :=
  ⟨rfl, fun _ _ => rfl, fun _ => rfl, fun _ => rfl⟩

theorem SameView.trans {r'' : Replay} (h : SameView d i r r') (h' : SameView d i r' r'') :
    SameView d i r r'' :=
  ⟨h.cursor.trans h'.cursor, fun name hname => (h.scope name hname).trans (h'.scope name hname),
    fun hasks => (h.replies hasks).trans (h'.replies hasks),
    fun hprints => (h.output hprints).trans (h'.output hprints)⟩

/-- The step of a thread depends on what it sees only. -/
theorem SameView.step_self (h : SameView d i r r') (hr : r.Sound d) :
    SameView d i (r.step d i) (r'.step d i) := by
  rcases step_cases d r i with ⟨hended, hstep⟩ | ⟨c, id, hc, hcur, hstep⟩
  · -- a thread that has ended in one state has ended in the other
    have hended' : r'.machine.isRunning i = false := by
      unfold Machine.isRunning at hended ⊢
      rwa [← h.cursor]
    rwa [hstep, step_of_not_running hended']
  · have hc' : r'.machine.cursors[i]? = some c := by rw [← h.cursor, hc]
    have hstep' : r'.step d i =
        let result := d.scripted id r'.machine.env r'.script
        ⟨⟨result.1.2, r'.machine.cursors.set i ⟨.after result.1.1, c.steps + 1⟩⟩, result.2⟩ :=
      step_of_running hc' hcur
    have hvisits := hr.inPlace hc hcur
    have halike : Alike r.machine.env r'.machine.env r.script r'.script
        (d.scripted id r.machine.env r.script) (d.scripted id r'.machine.env r'.script) :=
      d.alike_scripted (fun block hblock text htext name hname =>
        h.scope name ⟨block, text, ⟨id, hvisits, hblock⟩, htext, hname⟩)
      (fun block hblock hasks => h.replies ⟨block, ⟨id, hvisits, hblock⟩, hasks⟩)
    rw [hstep, hstep']
    refine ⟨?_, fun name hname => halike.scope name (h.scope name hname),
      fun hasks => halike.replies (h.replies hasks),
      fun hprints => halike.output (h.output hprints)⟩
    dsimp only
    rw [List.getElem?_set_self (List.getElem?_eq_some_iff.mp hc).1,
      List.getElem?_set_self (List.getElem?_eq_some_iff.mp hc').1, halike.outcome]

/-- A thread does not see the steps of another one. -/
theorem sameView_step_of_ne (hd : d.Separate) (hr : r.Sound d) (hne : i ≠ j) :
    SameView d i (r.step d j) r := by
  have hcursor := getElem?_cursors_step_of_ne (d := d) (r := r) hne
  rcases hr.framed_step j with ⟨henv, hscript⟩ | ⟨block, outcome, hexecutes, hframe⟩
  · exact ⟨hcursor, fun name _ => by rw [henv], fun _ => by rw [hscript], fun _ => by rw [hscript]⟩
  · refine ⟨hcursor, fun name hname => ?_, fun hasks => ?_, fun hprints => ?_⟩
    · by_cases htarget : block.target? = some name
      · -- a target that is not declared has no value before and none after
        have hnone : r.machine.env.scope name = none := by
          rw [← Option.not_isSome_iff_eq_none, hr.declared]
          exact fun hdeclared => hd.apart (Ne.symm hne) hexecutes htarget hdeclared hname
        have hafter := hframe.declared name
        rw [hnone] at hafter ⊢
        exact Option.not_isSome_iff_eq_none.mp (by rw [hafter]; simp)
      · exact hframe.scope name htarget
    · refine hframe.replies (Bool.eq_false_iff.mpr fun hblockAsks => hne ?_)
      exact hd.asks hasks ⟨block, hexecutes, hblockAsks⟩
    · refine hframe.output (Bool.eq_false_iff.mpr fun hblockPrints => hne ?_)
      exact hd.prints hprints ⟨block, hexecutes, hblockPrints⟩

end Replay

/-! ## Complete schedules -/

namespace Diagram

open Replay

variable {d : Diagram} {inputs : List String}

/-- What a thread sees after an order is what it sees after its own steps alone. -/
theorem Separate.sameView_replay (hd : d.Separate) (inputs : List String) (order : List Nat)
    (i : Nat) :
    SameView d i (d.replay inputs order) (d.replay inputs (List.replicate (order.count i) i)) := by
  induction order using List.reverseRecOn with
  | nil => exact .refl d i _
  | append_singleton order thread ih =>
      rw [replay_append_singleton]
      by_cases heq : thread = i
      · subst heq
        rw [List.count_append, List.count_singleton_self, List.replicate_succ',
          replay_append_singleton]
        exact ih.step_self (sound_replay d inputs order)
      · rw [List.count_append, List.count_singleton, if_neg (by simpa using heq), Nat.add_zero]
        exact (sameView_step_of_ne hd (sound_replay d inputs order) (Ne.symm heq)).trans ih

/-- In a schedule a thread has been running before each of its steps. -/
theorem Schedule.exists_running {order : List Nat} {i n : Nat} (h : d.Schedule inputs order)
    (hn : n < order.count i) :
    ∃ before, before.count i = n ∧ (d.replay inputs before).machine.isRunning i = true := by
  induction h with
  | nil => exact absurd hn (by simp)
  | @snoc order thread _ hrun ih =>
      rw [List.count_append, List.count_singleton] at hn
      by_cases hlt : n < order.count i
      · exact ih hlt
      · by_cases heq : thread = i
        · subst heq
          simp only [beq_self_eq_true, if_true] at hn
          exact ⟨order, by omega, hrun⟩
        · rw [if_neg (by simpa using heq)] at hn
          exact absurd hn hlt

/-- No thread takes more steps in a schedule than in a complete one. -/
theorem Separate.count_le (hd : d.Separate) {a b : List Nat} (ha : d.Complete inputs a)
    (hb : d.Schedule inputs b) (i : Nat) : b.count i ≤ a.count i := by
  by_contra hlt
  obtain ⟨before, hcount, hrun⟩ := hb.exists_running (Nat.lt_of_not_le hlt)
  -- after `before` the thread sees what it sees after `a`, where it has ended
  have hview := (hd.sameView_replay inputs before i).cursor
  rw [hcount, ← (hd.sameView_replay inputs a i).cursor] at hview
  have hended := Machine.isOver_iff.mp ha.ended i
  unfold Machine.isRunning at hrun hended
  rw [hview, hended] at hrun
  exact Bool.noConfusion hrun

theorem Separate.count_eq (hd : d.Separate) {a b : List Nat} (ha : d.Complete inputs a)
    (hb : d.Complete inputs b) (i : Nat) : a.count i = b.count i :=
  Nat.le_antisymm (hd.count_le hb ha.schedule i) (hd.count_le ha hb.schedule i)

theorem Separate.sameView (hd : d.Separate) {a b : List Nat} (ha : d.Complete inputs a)
    (hb : d.Complete inputs b) (i : Nat) :
    SameView d i (d.replay inputs a) (d.replay inputs b) := by
  have hview := hd.sameView_replay inputs a i
  have hview' := hd.sameView_replay inputs b i
  rw [← hd.count_eq ha hb i] at hview'
  exact ⟨hview.cursor.trans hview'.cursor.symm,
    fun name hname => (hview.scope name hname).trans (hview'.scope name hname).symm,
    fun hasks => (hview.replies hasks).trans (hview'.replies hasks).symm,
    fun hprints => (hview.output hprints).trans (hview'.output hprints).symm⟩

/-- All complete schedules lead to the same place. -/
theorem Separate.replay_eq (hd : d.Separate) {a b : List Nat} (ha : d.Complete inputs a)
    (hb : d.Complete inputs b) : d.replay inputs a = d.replay inputs b := by
  have hview := hd.sameView ha hb
  -- each thread sees its cursor and what it mentions, asks for and prints
  have hcursors : (d.replay inputs a).machine.cursors = (d.replay inputs b).machine.cursors :=
    List.ext_getElem? fun i => (hview i).cursor
  have henv : (d.replay inputs a).machine.env = (d.replay inputs b).machine.env := by
    refine Environment.ext_scope ?_
    intro name
    by_cases hmention : ∃ i, d.Mentions i name
    · obtain ⟨i, hi⟩ := hmention
      exact (hview i).scope name hi
    · -- a name in no text is the target of no block
      have hunwritten (i : Nat) (block : Block) (hexecutes : d.Executes i block) :
          block.target? ≠ some name := fun htarget => by
        obtain ⟨text, htext, hwithin⟩ := Block.infix_of_target? htarget
        exact hmention ⟨i, block, text, hexecutes, htext, hwithin⟩
      rw [scope_replay_of_unwritten hunwritten, scope_replay_of_unwritten hunwritten]
  have hreplies : (d.replay inputs a).script.replies = (d.replay inputs b).script.replies := by
    by_cases hasks : ∃ i, d.Asks i
    · obtain ⟨i, hi⟩ := hasks
      exact (hview i).replies hi
    · rw [not_exists] at hasks
      rw [replies_replay_of_not_asks hasks, replies_replay_of_not_asks hasks]
  have houtput : (d.replay inputs a).script.output = (d.replay inputs b).script.output := by
    by_cases hprints : ∃ i, d.Prints i
    · obtain ⟨i, hi⟩ := hprints
      exact (hview i).output hi
    · rw [not_exists] at hprints
      rw [output_replay_of_not_prints hprints, output_replay_of_not_prints hprints]
  rcases hra : d.replay inputs a with ⟨⟨env, cursors⟩, ⟨replies, output⟩⟩
  rcases hrb : d.replay inputs b with ⟨⟨env', cursors'⟩, ⟨replies', output'⟩⟩
  simp only [hra, hrb] at hcursors henv hreplies houtput
  rw [hcursors, henv, hreplies, houtput]

/-- All complete schedules have the same length. -/
theorem Separate.length_eq (hd : d.Separate) {a b : List Nat} (ha : d.Complete inputs a)
    (hb : d.Complete inputs b) : a.length = b.length :=
  (List.perm_iff_count.mpr (hd.count_eq ha hb)).length_eq

end Diagram

/-! ## What a search finds -/

namespace Task

variable {task : Task}

/-- Where one run can stand for all, the overall rate is over all visited runs, and all of
them match or none does. -/
theorem overall_of_uniform {done : List (List Nat)} {order : List Nat}
    (hvisited : order ∈ done.flatMap task.extensions) (hends : task.ends order = true)
    (huniform : ∀ other ∈ done.flatMap task.extensions, task.ends other = true →
      task.meets other = task.meets order)
    (interrupted : Bool) :
    ∃ rate, ((task.findings done).report interrupted).overall? = some rate ∧ 0 < rate.runs ∧
      (rate.matched = 0 ∨ rate.matched = rate.runs) := by
  refine ⟨_, overall?_tally ne_nil_of_mem_visited hvisited hends interrupted,
    List.countP_pos_iff.mpr ⟨order, hvisited, hends⟩, ?_⟩
  -- this run decides for all whether they match
  cases hmeet : task.meets order with
  | false =>
      left
      rw [List.countP_eq_zero]
      intro other hmem htest
      obtain ⟨hends', hmeets⟩ := Bool.and_eq_true_iff.mp htest
      rw [huniform other hmem hends', hmeet] at hmeets
      exact Bool.noConfusion hmeets
  | true =>
      right
      rw [countP_and_eq_countP]
      intro other hmem hends'
      rw [huniform other hmem hends', hmeet]

/-- A search over threads that share nothing finds that all runs match or that none does. -/
theorem overall_of_separate (hd : task.diagram.Separate) {report : Report Rate}
    (h : task.Gives report) (hruns : 0 < report.total) :
    ∃ rate, report.overall? = some rate ∧ 0 < rate.runs ∧
      (rate.exactPercent = 0 ∨ rate.exactPercent = 100) := by
  obtain ⟨done, waiting, interrupted, hagenda, rfl⟩ := h.findings
  have htotal : ((task.findings done).report interrupted).total = _ :=
    total_tally task (done.flatMap task.extensions)
  rw [htotal, List.countP_pos_iff] at hruns
  obtain ⟨order, hvisited, hends⟩ := hruns
  have hthreads := threads_ne_nil_of_mem_visited hvisited
  have hcomplete := hagenda.complete_of_mem_visited hthreads hvisited hends
  obtain ⟨rate, hoverall, hpos, hmatched⟩ := overall_of_uniform hvisited hends
    (fun other hmem hends' => by
      have hcomplete' := hagenda.complete_of_mem_visited hthreads hmem hends'
      unfold meets
      rw [hd.replay_eq hcomplete' hcomplete]) interrupted
  exact ⟨rate, hoverall, hpos,
    hmatched.imp Rate.exactPercent_of_none (Rate.exactPercent_of_all · hpos)⟩

end Task

/-- **Threads that share nothing are independent of the schedule.** Every two complete
schedules lead to the same environment, script and cursors in the same number of steps, and
the rate over all runs of a search is 0 or 100 percent. -/
theorem Diagram.schedule_independent (d : Diagram) (inputs : List String) (hd : d.Separate) :
    (∀ a b, d.Complete inputs a → d.Complete inputs b →
      d.replay inputs a = d.replay inputs b ∧ a.length = b.length) ∧
      ∀ task : Task, task.diagram = d → task.inputs = inputs → ∀ report, task.Gives report →
        0 < report.total → ∃ rate, report.overall? = some rate ∧ 0 < rate.runs ∧
          (rate.exactPercent = 0 ∨ rate.exactPercent = 100) := by
  refine ⟨fun a b ha hb => ⟨hd.replay_eq ha hb, hd.length_eq ha hb⟩, ?_⟩
  rintro task rfl rfl report hgives hruns
  exact Task.overall_of_separate hd hgives hruns

/-- One thread prints what it has counted, and the other one asks for a limit. -/
def countAndAsk : Diagram where
  declared := [⟨"count", .int⟩, ⟨"limit", .int⟩]
  blocks := ⟨[(1, .assign 1 2 "count = count + 2"), (2, .print 2 3 "count"), (3, .stop 3 none),
    (4, .input 4 5 "limit"), (5, .stop 5 none)], by decide⟩
  threads := [1, 4]
  names_nodup := by decide
  id_of_mem := by decide

theorem separate_countAndAsk : countAndAsk.Separate := by
  have hregion (i : Nat) (block : Block) (h : countAndAsk.Executes i block) :
      i = 0 ∧ block ∈ [1, 2, 3].filterMap countAndAsk.block? ∨
        i = 1 ∧ block ∈ [4, 5].filterMap countAndAsk.block? := by
    match i, h with
    | 0, h => exact .inl ⟨rfl, h.mem_of_confines (by decide +kernel)⟩
    | 1, h => exact .inr ⟨rfl, h.mem_of_confines (by decide +kernel)⟩
    | i + 2, h =>
        have hmem : block ∈ ([] : List BlockId).filterMap countAndAsk.block? :=
          h.mem_of_confines (by simp [Diagram.confines, countAndAsk])
        exact absurd hmem (by simp)
  have hapart : ∀ block ∈ [1, 2, 3].filterMap countAndAsk.block?, ∀ name ∈ block.target?,
      ∀ other ∈ [4, 5].filterMap countAndAsk.block?, ∀ text ∈ other.text?,
        ¬name.toList <:+: text.toList := by
    decide +kernel
  have hapart' : ∀ block ∈ [4, 5].filterMap countAndAsk.block?, ∀ name ∈ block.target?,
      ∀ other ∈ [1, 2, 3].filterMap countAndAsk.block?, ∀ text ∈ other.text?,
        ¬name.toList <:+: text.toList := by
    decide +kernel
  have hasks : ∀ block ∈ [1, 2, 3].filterMap countAndAsk.block?, block.asks = false := by
    decide +kernel
  have hprints : ∀ block ∈ [4, 5].filterMap countAndAsk.block?, block.prints = false := by
    decide +kernel
  constructor
  case apart =>
    rintro i j block name hne hexecutes htarget - ⟨other, text, hother, htext, hwithin⟩
    rcases hregion i block hexecutes with ⟨rfl, hmem⟩ | ⟨rfl, hmem⟩ <;>
      rcases hregion j other hother with ⟨rfl, hmem'⟩ | ⟨rfl, hmem'⟩
    · exact hne rfl
    · exact hapart block hmem name htarget other hmem' text htext hwithin
    · exact hapart' block hmem name htarget other hmem' text htext hwithin
    · exact hne rfl
  case asks =>
    have hone (i : Nat) (h : countAndAsk.Asks i) : i = 1 := by
      obtain ⟨block, hexecutes, hblock⟩ := h
      rcases hregion i block hexecutes with ⟨-, hmem⟩ | ⟨hi, -⟩
      · rw [hasks block hmem] at hblock
        exact Bool.noConfusion hblock
      · exact hi
    exact fun {i j} hi hj => (hone i hi).trans (hone j hj).symm
  case prints =>
    have hzero (i : Nat) (h : countAndAsk.Prints i) : i = 0 := by
      obtain ⟨block, hexecutes, hblock⟩ := h
      rcases hregion i block hexecutes with ⟨hi, -⟩ | ⟨-, hmem⟩
      · exact hi
      · rw [hprints block hmem] at hblock
        exact Bool.noConfusion hblock
    exact fun {i j} hi hj => (hzero i hi).trans (hzero j hj).symm

def countAndAskTask : Task :=
  ⟨countAndAsk, ["7"], ["2"], ⟨none, none, 1⟩, .silent⟩

/-- The threads one after the other, the threads in turn, and a search for all. -/
theorem schedule_independent_countAndAsk :
    countAndAsk.Complete ["7"] [0, 0, 0, 1, 1] ∧ countAndAsk.Complete ["7"] [1, 0, 1, 0, 0] ∧
      countAndAsk.replay ["7"] [0, 0, 0, 1, 1] = countAndAsk.replay ["7"] [1, 0, 1, 0, 0] ∧
      ∃ report, countAndAskTask.Gives report ∧ 0 < report.total ∧
        ∃ rate, report.overall? = some rate ∧
          (rate.exactPercent = 0 ∨ rate.exactPercent = 100) := by
  have hinOrder : countAndAsk.Complete ["7"] [0, 0, 0, 1, 1] :=
    ⟨Diagram.schedule_of_forall (by decide +kernel), by decide +kernel⟩
  have hinTurn : countAndAsk.Complete ["7"] [1, 0, 1, 0, 0] :=
    ⟨Diagram.schedule_of_forall (by decide +kernel), by decide +kernel⟩
  have hindependent := Diagram.schedule_independent countAndAsk ["7"] separate_countAndAsk
  have hrun :
      (countAndAskTask.explore 40).any (fun report => decide (0 < report.total)) = true := by
    decide +kernel
  obtain ⟨report, hreport, htotal⟩ := (Option.any_eq_true _ _).mp hrun
  have hgives : countAndAskTask.Gives report := .inTheEnd hreport
  have htotal : 0 < report.total := of_decide_eq_true htotal
  obtain ⟨rate, hrate, -, hpercent⟩ :=
    hindependent.2 countAndAskTask rfl rfl report hgives htotal
  exact ⟨hinOrder, hinTurn, (hindependent.1 _ _ hinOrder hinTurn).1, report, hgives, htotal, rate,
    hrate, hpercent⟩

end Flowchart
