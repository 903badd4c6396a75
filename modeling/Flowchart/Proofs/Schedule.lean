import Flowchart.Explore.Replay
import Mathlib.Data.List.Induction

/-!
# Schedules

An order is any list of threads. A schedule is an order in which nobody is called in
vain: each entry names a thread that still runs once the entries before it have
taken their steps. A schedule is complete when no thread runs after it, and live
otherwise.

The facts of this file are the ones the search relies on to keep the list of running
threads by hand: a step moves the thread that takes it and no other, and it never
changes how many threads there are.
-/

namespace Flowchart

/-! ## What a step does to the cursors -/

namespace Replay

theorem step_of_absent {d : Diagram} {r : Replay} {thread : Nat}
    (h : r.machine.cursors[thread]? = none) : r.step d thread = r := by
  unfold Replay.step Machine.step
  rw [h]
  rfl

/-- A thread that has ended takes its step in vain. -/
theorem step_of_ended {d : Diagram} {r : Replay} {thread : Nat} {c : Cursor}
    (hc : r.machine.cursors[thread]? = some c) (hcur : c.current? = none) :
    r.step d thread = r := by
  have hset : r.machine.cursors.set thread c = r.machine.cursors := by
    obtain ⟨hlt, hget⟩ := List.getElem?_eq_some_iff.mp hc
    rw [← hget]
    exact List.set_getElem_self hlt
  unfold Replay.step Machine.step Cursor.advance
  rw [hc]
  simp only [hcur]
  show (⟨⟨r.machine.env, r.machine.cursors.set thread c⟩, r.script⟩ : Replay) = r
  rw [hset]

/-- The step of a thread that runs is the step of its block. -/
theorem step_of_running {d : Diagram} {r : Replay} {thread : Nat} {c : Cursor} {id : BlockId}
    (hc : r.machine.cursors[thread]? = some c) (hcur : c.current? = some id) :
    r.step d thread =
      let result := Id.run ((d.step Script.console id r.machine.env).run r.script)
      ⟨⟨result.1.2, r.machine.cursors.set thread ⟨.after result.1.1, c.steps + 1⟩⟩,
        result.2⟩ := by
  unfold Replay.step Machine.step Cursor.advance
  rw [hc]
  simp only [hcur]
  rfl

/-- A step of a thread that does not run changes nothing. -/
theorem step_of_not_running {d : Diagram} {r : Replay} {thread : Nat}
    (h : r.machine.isRunning thread = false) : r.step d thread = r := by
  unfold Machine.isRunning at h
  cases hc : r.machine.cursors[thread]? with
  | none => exact step_of_absent hc
  | some c =>
      rw [hc] at h
      have hcur : c.current? = none :=
        Option.not_isSome_iff_eq_none.mp (by simpa [Cursor.isRunning] using h)
      exact step_of_ended hc hcur

/-- A step changes at most the cursor of the thread that takes it. -/
theorem cursors_step (d : Diagram) (r : Replay) (thread : Nat) :
    ∃ c, (r.step d thread).machine.cursors = r.machine.cursors.set thread c := by
  cases hc : r.machine.cursors[thread]? with
  | none =>
      refine ⟨⟨.finished, 0⟩, ?_⟩
      rw [step_of_absent hc, List.set_eq_of_length_le]
      exact List.getElem?_eq_none_iff.mp hc
  | some c =>
      cases hcur : c.current? with
      | none =>
          obtain ⟨hlt, hget⟩ := List.getElem?_eq_some_iff.mp hc
          refine ⟨c, ?_⟩
          rw [step_of_ended hc hcur, ← hget, List.set_getElem_self hlt]
      | some id => exact ⟨_, by rw [step_of_running hc hcur]⟩

theorem length_cursors_step (d : Diagram) (r : Replay) (thread : Nat) :
    (r.step d thread).machine.cursors.length = r.machine.cursors.length := by
  obtain ⟨c, hc⟩ := cursors_step d r thread
  rw [hc, List.length_set]

theorem length_cursors_run (d : Diagram) (r : Replay) (order : List Nat) :
    (r.run d order).machine.cursors.length = r.machine.cursors.length := by
  induction order generalizing r with
  | nil => rfl
  | cons thread order ih => exact (ih _).trans (length_cursors_step d r thread)

theorem getElem?_cursors_step_of_ne {d : Diagram} {r : Replay} {thread other : Nat}
    (h : other ≠ thread) :
    (r.step d thread).machine.cursors[other]? = r.machine.cursors[other]? := by
  obtain ⟨c, hc⟩ := cursors_step d r thread
  rw [hc, List.getElem?_set_ne (Ne.symm h)]

/-- Whether another thread runs is not changed by a step. -/
theorem isRunning_step_of_ne {d : Diagram} {r : Replay} {thread other : Nat}
    (h : other ≠ thread) :
    (r.step d thread).machine.isRunning other = r.machine.isRunning other := by
  unfold Machine.isRunning
  rw [getElem?_cursors_step_of_ne h]

end Replay

theorem Machine.isRunning_lt {machine : Machine} {thread : Nat}
    (h : machine.isRunning thread = true) : thread < machine.cursors.length := by
  unfold Machine.isRunning at h
  cases hc : machine.cursors[thread]? with
  | none => rw [hc] at h; exact absurd h (by simp)
  | some c => exact (List.getElem?_eq_some_iff.mp hc).1

/-- A thread that runs is at some block. -/
theorem Machine.exists_of_isRunning {machine : Machine} {thread : Nat}
    (h : machine.isRunning thread = true) :
    ∃ c id, machine.cursors[thread]? = some c ∧ c.current? = some id := by
  unfold Machine.isRunning at h
  obtain ⟨c, hc, hrun⟩ := (Option.any_eq_true _ _).mp h
  obtain ⟨id, hid⟩ := Option.isSome_iff_exists.mp hrun
  exact ⟨c, id, hc, hid⟩

/-- A machine is over when no thread of it runs. -/
theorem Machine.isOver_iff {machine : Machine} :
    machine.isOver = true ↔ ∀ thread, machine.isRunning thread = false := by
  unfold Machine.isOver Machine.isRunning
  rw [List.all_eq_true]
  constructor
  · intro h thread
    cases hc : machine.cursors[thread]? with
    | none => rfl
    | some c =>
        have hover := h c (List.mem_of_getElem? hc)
        simpa using hover
  · intro h c hmem
    obtain ⟨thread, hlt, hget⟩ := List.mem_iff_getElem.mp hmem
    have hrun := h thread
    rw [List.getElem?_eq_getElem hlt, hget] at hrun
    simpa using hrun

/-- Once every thread has ended, no order leads any further. -/
theorem Replay.run_of_isOver {r : Replay} (h : r.machine.isOver = true) (d : Diagram)
    (order : List Nat) : r.run d order = r := by
  induction order with
  | nil => rfl
  | cons thread order ih =>
      have hstep : r.step d thread = r := step_of_not_running (Machine.isOver_iff.mp h thread)
      show (r.step d thread).run d order = r
      rw [hstep, ih]

namespace Diagram

variable {d : Diagram} {inputs : List String}

theorem replay_nil (d : Diagram) (inputs : List String) :
    d.replay inputs [] = .start d inputs := rfl

theorem length_cursors_replay (d : Diagram) (inputs : List String) (order : List Nat) :
    (d.replay inputs order).machine.cursors.length = d.threads.length := by
  rw [replay, Replay.length_cursors_run]
  exact List.length_map _

/-- At the start every thread runs. -/
theorem isRunning_start (d : Diagram) (inputs : List String) {thread : Nat}
    (h : thread < d.threads.length) :
    (d.replay inputs []).machine.isRunning thread = true := by
  simp [replay_nil, Replay.start, Machine.start, Machine.isRunning, Cursor.isRunning,
    Cursor.current?, Cursor.start, h]

/-! ## Schedules -/

/-- The threads that run after an order, in ascending order. -/
def runningAfter (d : Diagram) (inputs : List String) (order : List Nat) : List Nat :=
  (List.range d.threads.length).filter (d.replay inputs order).machine.isRunning

/-- Each entry names a thread that runs after the entries before it. -/
inductive Schedule (d : Diagram) (inputs : List String) : List Nat → Prop where
  | nil : Schedule d inputs []
  | snoc {order : List Nat} {thread : Nat} :
      Schedule d inputs order →
      (d.replay inputs order).machine.isRunning thread = true →
      Schedule d inputs (order ++ [thread])

/-- A schedule after which no thread runs. -/
structure Complete (d : Diagram) (inputs : List String) (order : List Nat) : Prop where
  schedule : d.Schedule inputs order
  ended : (d.replay inputs order).machine.isOver = true

/-- A schedule after which some thread still runs. -/
structure Live (d : Diagram) (inputs : List String) (order : List Nat) : Prop where
  schedule : d.Schedule inputs order
  goesOn : (d.replay inputs order).machine.isOver = false

theorem mem_runningAfter {order : List Nat} {thread : Nat} :
    thread ∈ d.runningAfter inputs order ↔
      (d.replay inputs order).machine.isRunning thread = true := by
  unfold runningAfter
  rw [List.mem_filter, List.mem_range, and_iff_right_iff_imp]
  intro h
  have hlt := Machine.isRunning_lt h
  rwa [length_cursors_replay] at hlt

theorem runningAfter_eq_nil_iff {order : List Nat} :
    d.runningAfter inputs order = [] ↔ (d.replay inputs order).machine.isOver = true := by
  rw [Machine.isOver_iff, List.eq_nil_iff_forall_not_mem]
  simp only [mem_runningAfter, Bool.not_eq_true]

/-- The threads that run ascend. -/
theorem pairwise_runningAfter (d : Diagram) (inputs : List String) (order : List Nat) :
    (d.runningAfter inputs order).Pairwise (· < ·) :=
  List.pairwise_lt_range.filter _

/-- The last step of a schedule was not taken in vain. -/
theorem Schedule.of_snoc {order : List Nat} {thread : Nat}
    (h : d.Schedule inputs (order ++ [thread])) :
    d.Schedule inputs order ∧ (d.replay inputs order).machine.isRunning thread = true := by
  generalize hl : order ++ [thread] = longer at h
  cases h with
  | nil => exact absurd hl (by simp)
  | snoc hs hr =>
      obtain ⟨rfl, rfl⟩ := List.append_singleton_inj.mp hl
      exact ⟨hs, hr⟩

/-- An order is a schedule when each of its entries runs after those before it. -/
theorem schedule_of_forall {order : List Nat}
    (h : ∀ n : Fin order.length,
      (d.replay inputs (order.take n)).machine.isRunning order[n] = true) :
    d.Schedule inputs order := by
  induction order using List.reverseRecOn with
  | nil => exact .nil
  | append_singleton order thread ih =>
      refine .snoc (ih fun n => ?_) ?_
      · have hn := h ⟨n, by rw [List.length_append]; exact Nat.lt_add_right _ n.isLt⟩
        simp only [Fin.getElem_fin] at hn ⊢
        rwa [List.take_append_of_le_length (Nat.le_of_lt n.isLt),
          List.getElem_append_left n.isLt] at hn
      · have hlast := h ⟨order.length, by simp⟩
        simpa using hlast

/-- Before its last step every schedule is live. -/
theorem Schedule.live_of_snoc {order : List Nat} {thread : Nat}
    (h : d.Schedule inputs (order ++ [thread])) : d.Live inputs order := by
  obtain ⟨hs, hr⟩ := h.of_snoc
  refine ⟨hs, ?_⟩
  by_contra hover
  rw [Bool.not_eq_false, Machine.isOver_iff] at hover
  rw [hover thread] at hr
  exact Bool.noConfusion hr

/-- With at least one thread the empty schedule is live. -/
theorem live_nil (h : d.threads ≠ []) : d.Live inputs [] := by
  refine ⟨.nil, ?_⟩
  by_contra hover
  rw [Bool.not_eq_false, Machine.isOver_iff] at hover
  have hrun := isRunning_start d inputs (List.length_pos_iff.mpr h)
  rw [hover 0] at hrun
  exact Bool.noConfusion hrun

/-- With at least one thread a complete schedule is a live one and one step more. -/
theorem Complete.eq_snoc {order : List Nat} (hd : d.threads ≠ [])
    (h : d.Complete inputs order) :
    ∃ before thread, order = before ++ [thread] ∧ d.Live inputs before ∧
      (d.replay inputs before).machine.isRunning thread = true := by
  obtain ⟨hs, hover⟩ := h
  cases hs with
  | nil => rw [(live_nil hd).goesOn] at hover; exact Bool.noConfusion hover
  | @snoc before thread hbefore hrun =>
      exact ⟨before, thread, rfl, (hbefore.snoc hrun).live_of_snoc, hrun⟩

/-- A schedule names threads of the diagram only. -/
theorem Schedule.lt {order : List Nat} (h : d.Schedule inputs order) :
    ∀ thread ∈ order, thread < d.threads.length := by
  induction h with
  | nil => simp
  | snoc _ hrun ih =>
      intro other hmem
      rcases List.mem_append.mp hmem with hmem | hmem
      · exact ih other hmem
      · have hlt := Machine.isRunning_lt hrun
        rw [length_cursors_replay] at hlt
        rw [List.mem_singleton.mp hmem]
        exact hlt

end Diagram

end Flowchart
