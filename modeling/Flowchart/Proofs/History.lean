import Flowchart.Proofs.Schedule
import Mathlib.Algebra.GroupWithZero.Nat

/-!
# The history of a replay

An entry of an order is idle where it names no thread, or a thread that has ended already. A
replay passes over the idle entries and over no others: what is left of the order without them
is a schedule, and it leads to the same place (`Diagram.replay_withoutIdle`). The steps that
the threads have counted are the entries of this schedule, each of its own thread
(`Diagram.Schedule.steps_eq_count`, `Diagram.Schedule.sum_steps`), which is why the length of a
schedule can stand for the steps of its run.

What the steps of an order contribute to its history is collected by `Replay.along`.
-/

namespace Flowchart

namespace Replay

/-- What the steps of an order contribute, in turn, where `f` tells what a step contributes
from the place before it and the thread that takes it. -/
def along {α : Type} (d : Diagram) (f : Replay → Nat → Option α) : Replay → List Nat → List α
  | _, [] => []
  | r, thread :: order => (f r thread).toList ++ along d f (r.step d thread) order

variable {d : Diagram} {r : Replay}

theorem along_append_singleton {α : Type} (d : Diagram) (f : Replay → Nat → Option α)
    (r : Replay) (order : List Nat) (thread : Nat) :
    r.along d f (order ++ [thread]) = r.along d f order ++ (f (r.run d order) thread).toList := by
  induction order generalizing r with
  | nil => simp [along, run]
  | cons first order ih =>
      rw [List.cons_append, along, along, ih, List.append_assoc]
      rfl

/-! ## Threads that have ended -/

/-- A thread that has ended stays where it is. -/
theorem cursors_run_of_ended {thread : Nat} {c : Cursor} (hc : r.cursors[thread]? = some c)
    (hended : c.isRunning = false) (d : Diagram) (order : List Nat) :
    (r.run d order).cursors[thread]? = some c := by
  induction order generalizing r with
  | nil => exact hc
  | cons other order ih =>
      refine ih ?_
      by_cases heq : other = thread
      · subst heq
        have hcur : c.current? = none :=
          Option.not_isSome_iff_eq_none.mp (by simpa [Cursor.isRunning] using hended)
        rw [step_of_ended hc hcur]
        exact hc
      · exact (getElem?_cursors_step_of_ne (Ne.symm heq)).trans hc

/-- A step that is taken is counted by the thread that takes it, and by no other one. -/
theorem cursors_step_of_running {thread : Nat} (h : r.machine.isRunning thread = true)
    (d : Diagram) :
    ∃ c control, r.cursors[thread]? = some c ∧
      (r.step d thread).cursors = r.cursors.set thread ⟨control, c.steps + 1⟩ := by
  obtain ⟨c, id, hc, hid⟩ := Machine.exists_of_isRunning h
  exact ⟨c, _, hc, congrArg Replay.cursors (step_of_running hc hid)⟩

/-- Whether the thread does not exist or has ended. -/
def isIdle (r : Replay) (thread : Nat) : Bool :=
  r.cursors[thread]?.all fun c => !c.isRunning

theorem isIdle_eq (r : Replay) (thread : Nat) :
    r.isIdle thread = !r.machine.isRunning thread := by
  unfold isIdle Machine.isRunning
  cases hc : r.machine.cursors[thread]? <;> simp [cursors, hc]

end Replay

namespace Diagram

variable {d : Diagram} {inputs : List String}

theorem replay_append (d : Diagram) (inputs : List String) (order later : List Nat) :
    d.replay inputs (order ++ later) = (d.replay inputs order).run d later := by
  rw [replay, replay, Replay.run, Replay.run, Replay.run, List.foldl_append]

/-- The entries of an order that are not idle where they stand. -/
def withoutIdle (d : Diagram) (inputs : List String) (order : List Nat) : List Nat :=
  (Replay.start d inputs).along d (fun r thread => if r.isIdle thread then none else some thread)
    order

theorem withoutIdle_of_idle {order : List Nat} {thread : Nat}
    (h : (d.replay inputs order).isIdle thread = true) :
    d.withoutIdle inputs (order ++ [thread]) = d.withoutIdle inputs order := by
  rw [replay] at h
  rw [withoutIdle, Replay.along_append_singleton, h]
  exact List.append_nil _

theorem withoutIdle_of_not_idle {order : List Nat} {thread : Nat}
    (h : (d.replay inputs order).isIdle thread = false) :
    d.withoutIdle inputs (order ++ [thread]) = d.withoutIdle inputs order ++ [thread] := by
  rw [replay] at h
  rw [withoutIdle, Replay.along_append_singleton, h]
  rfl

/-- Without its idle entries an order leads to the same place. -/
theorem replay_withoutIdle_eq (d : Diagram) (inputs : List String) (order : List Nat) :
    d.replay inputs (d.withoutIdle inputs order) = d.replay inputs order := by
  induction order using List.reverseRecOn with
  | nil => rfl
  | append_singleton order thread ih =>
      cases hidle : (d.replay inputs order).isIdle thread with
      | true =>
          rw [withoutIdle_of_idle hidle, ih, replay_append_singleton]
          rw [Replay.isIdle_eq, Bool.not_eq_true'] at hidle
          exact (Replay.step_of_not_running hidle).symm
      | false =>
          rw [withoutIdle_of_not_idle hidle, replay_append_singleton, ih, replay_append_singleton]

/-- None of the entries that are left is idle. -/
theorem schedule_withoutIdle (d : Diagram) (inputs : List String) (order : List Nat) :
    d.Schedule inputs (d.withoutIdle inputs order) := by
  induction order using List.reverseRecOn with
  | nil => exact .nil
  | append_singleton order thread ih =>
      cases hidle : (d.replay inputs order).isIdle thread with
      | true =>
          rw [withoutIdle_of_idle hidle]
          exact ih
      | false =>
          rw [withoutIdle_of_not_idle hidle]
          refine ih.snoc ?_
          rw [replay_withoutIdle_eq]
          rwa [Replay.isIdle_eq, Bool.not_eq_false'] at hidle

/-! ## Counting steps -/

/-- Each thread has counted its own entries. -/
theorem Schedule.steps_eq_count {order : List Nat} (h : d.Schedule inputs order) {thread : Nat}
    {c : Cursor} (hc : (d.replay inputs order).cursors[thread]? = some c) :
    c.steps = order.count thread := by
  induction h generalizing c with
  | nil =>
      have hstart : (d.threads.map Cursor.start)[thread]? = some c := hc
      rw [List.getElem?_map] at hstart
      obtain ⟨entry, _, rfl⟩ := Option.map_eq_some_iff.mp hstart
      rfl
  | @snoc order last _ hrun ih =>
      obtain ⟨before, control, hbefore, hset⟩ := Replay.cursors_step_of_running hrun d
      rw [replay_append_singleton, hset] at hc
      rw [List.count_append, List.count_singleton]
      by_cases heq : last = thread
      · subst heq
        rw [List.getElem?_set_self (List.getElem?_eq_some_iff.mp hbefore).1] at hc
        obtain rfl := Option.some.inj hc
        simp [ih hbefore]
      · rw [List.getElem?_set_ne heq] at hc
        simp [ih hc, heq]

/-- Together the threads have counted all entries. -/
theorem Schedule.sum_steps {order : List Nat} (h : d.Schedule inputs order) :
    ((d.replay inputs order).cursors.map Cursor.steps).sum = order.length := by
  induction h with
  | nil =>
      show ((d.threads.map Cursor.start).map Cursor.steps).sum = 0
      simp [Function.comp_def, Cursor.start, List.map_const']
  | @snoc order last _ hrun ih =>
      obtain ⟨c, control, hc, hset⟩ := Replay.cursors_step_of_running hrun d
      obtain ⟨hlt, hget⟩ := List.getElem?_eq_some_iff.mp hc
      -- the other cursors stand before and behind the one that moves
      obtain ⟨front, back, hbefore, _, hafter⟩ :=
        @List.exists_of_set _ _ ⟨control, c.steps + 1⟩ _ hlt
      rw [replay_append_singleton, hset, hafter, List.length_append, List.length_singleton, ← ih]
      rw [hget] at hbefore
      rw [hbefore]
      simp only [List.map_append, List.map_cons, List.sum_append, List.sum_cons]
      omega

end Diagram

/-- **A replay ignores exactly the idle entries.** What is left of an order without them is a
schedule that leads to the same place. It has as many entries as steps were counted, and each
thread has counted its own entries. A thread that has ended stays as it is in every longer
order. -/
theorem Diagram.replay_withoutIdle (d : Diagram) (inputs : List String) (order : List Nat) :
    d.replay inputs (d.withoutIdle inputs order) = d.replay inputs order ∧
      d.Schedule inputs (d.withoutIdle inputs order) ∧
      ((d.replay inputs order).cursors.map Cursor.steps).sum
        = (d.withoutIdle inputs order).length ∧
      ∀ thread c, (d.replay inputs order).cursors[thread]? = some c →
        c.steps = (d.withoutIdle inputs order).count thread ∧
          (c.isRunning = false →
            ∀ later, (d.replay inputs (order ++ later)).cursors[thread]? = some c) := by
  have heq := d.replay_withoutIdle_eq inputs order
  have hschedule := d.schedule_withoutIdle inputs order
  refine ⟨heq, hschedule, ?_, ?_⟩
  · rw [← hschedule.sum_steps, heq]
  · intro thread c hc
    constructor
    · rw [← heq] at hc
      exact hschedule.steps_eq_count hc
    · intro hended later
      rw [replay_append]
      exact Replay.cursors_run_of_ended hc hended d later

/-- One thread ends at once. The other one asks, and fails where there is no reply. -/
def stopAndFail : Diagram where
  declared := [⟨"answer", .int⟩]
  blocks := ⟨[(1, .stop 1 none), (2, .input 2 1 "answer")], by decide⟩
  threads := [1, 2]
  names_nodup := by decide
  id_of_mem := by decide

/-- There is no third thread, and the first one is called again after its end. -/
theorem replay_withoutIdle_stopAndFail :
    stopAndFail.withoutIdle [] [0, 2, 0, 1, 0] = [0, 1] ∧
      stopAndFail.replay [] [0, 1] = stopAndFail.replay [] [0, 2, 0, 1, 0] ∧
      ∀ later, (stopAndFail.replay [] ([0, 2, 0, 1, 0] ++ later)).cursors[1]?
        = some ⟨.failed ⟨.inputExhausted, some 2⟩, 1⟩ := by
  have hleft : stopAndFail.withoutIdle [] [0, 2, 0, 1, 0] = [0, 1] := by decide +kernel
  have hfailed : (stopAndFail.replay [] [0, 2, 0, 1, 0]).cursors[1]?
      = some ⟨.failed ⟨.inputExhausted, some 2⟩, 1⟩ := by decide +kernel
  obtain ⟨heq, -, -, hcursors⟩ := stopAndFail.replay_withoutIdle [] [0, 2, 0, 1, 0]
  rw [hleft] at heq
  exact ⟨hleft, heq, (hcursors 1 _ hfailed).2 (by decide)⟩

end Flowchart
