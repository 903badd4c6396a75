import Flowchart.Proofs.Explore.StateCap
import Mathlib.Algebra.BigOperators.Group.Finset.Basic

/-!
# How far a search goes

Either limit makes a search finite, whatever the threads do and whoever watches. A cap on
states bounds the number of expanded states by itself, and a limit on the length of
schedules bounds it by the number of orders that are short enough (`explore_endsWithin`).

The length limit also bounds the runs that are recorded, with one exception. Whether a
schedule has reached the limit is asked after its last step only, so the empty schedule is
expanded under any limit: a limit of zero acts like one, and the run of a thread that
ends with its first step is recorded although it is too long (`runs_within_limit`).
-/

namespace Flowchart

namespace Task

variable {task : Task} {limit : Nat} {s : Search}

/-! ## Expanded states -/

/-- The search for the task comes to its end, and it never expands more states than this. -/
structure EndsWithin (task : Task) (bound : Nat) : Prop where
  ends : ∃ last, task.search (bound + 2) = some last
  expanded_le : ∀ s, Search.Reachable task s → s.expanded ≤ bound
  /-- The orders that are expanded, each of them once. -/
  expansions : ∀ fuel last, task.search fuel = some last →
    (task.expansions fuel).Nodup ∧ (task.expansions fuel).length ≤ bound

/-- It is enough to bound the states that have been expanded wherever a search gets to. -/
theorem endsWithin_of_expanded_le {bound : Nat}
    (h : ∀ s, Search.Reachable task s → s.expanded ≤ bound) : task.EndsWithin bound where
  ends := Search.exists_run_of_expanded_le h .start
  expanded_le := h
  expansions := by
    intro fuel last hlast
    obtain ⟨waiting, hf⟩ : ∃ waiting, last.Follows task (task.expansions fuel) waiting :=
      Search.follows_expansions (Search.follows_start task) hlast
    have hle := h last (Search.reachable_of_run .start hlast).1
    rw [hf.expanded] at hle
    exact ⟨(List.nodup_append.mp hf.agenda.nodup).1, hle⟩

/-- Under a length limit there are only as many states as there are short orders. -/
theorem expanded_le_of_maxSteps (hl : task.limits.maxSteps = some limit)
    (hs : Search.Reachable task s) :
    s.expanded ≤ ∑ n ∈ Finset.range (max limit 1), task.diagram.threads.length ^ n := by
  obtain ⟨done, waiting, hf⟩ := hs.follows.1
  rw [hf.expanded]
  exact hf.agenda.length_done_le_of_reached fun order hreached => hreached.length_lt hl

/-- **Either limit makes a search finite.** With a limit on the length of schedules, a search
expands at most one state for each order over the threads that is shorter than the limit,
where a limit of zero acts like one. With a cap on states it expands at most so many. In
both cases it comes to its end, even if the threads never do. -/
theorem explore_endsWithin (task : Task) :
    (∀ limit, task.limits.maxSteps = some limit →
      task.EndsWithin (∑ n ∈ Finset.range (max limit 1), task.diagram.threads.length ^ n)) ∧
    ∀ cap, task.limits.maxStates = some cap → task.EndsWithin cap :=
  ⟨fun _ hl => endsWithin_of_expanded_le fun _ => expanded_le_of_maxSteps hl,
    fun _ hstates => endsWithin_of_expanded_le fun _ hs => hs.expanded_le hstates⟩

/-- Two threads that go round in circles. -/
def spinning (limits : Limits) : Task where
  diagram := {
    declared := []
    blocks := ⟨[(1, .stop 1 (some 1))], by decide⟩
    threads := [1, 1]
    names_nodup := by decide
    id_of_mem := by decide }
  inputs := []
  expected := []
  limits := limits
  observer := .silent

/-- Under a length limit of three all seven orders that are shorter are expanded, and under a
cap of five states five of them. -/
theorem explore_endsWithin_spinning :
    (spinning ⟨none, some 3, 1⟩).EndsWithin 7 ∧
    (∃ last, (spinning ⟨none, some 3, 1⟩).search 9 = some last ∧ last.expanded = 7) ∧
    (spinning ⟨some 5, none, 1⟩).EndsWithin 5 ∧
    ∃ last, (spinning ⟨some 5, none, 1⟩).search 7 = some last ∧ last.expanded = 5 := by
  have hseven := (explore_endsWithin (spinning ⟨none, some 3, 1⟩)).1 3 rfl
  have hfive := (explore_endsWithin (spinning ⟨some 5, none, 1⟩)).2 5 rfl
  have hsearch : ∃ last ∈ (spinning ⟨none, some 3, 1⟩).search 9, last.expanded = 7 := by decide
  have hcapped : ∃ last ∈ (spinning ⟨some 5, none, 1⟩).search 7, last.expanded = 5 := by decide
  exact ⟨hseven, hsearch, hfive, hcapped⟩

/-! ## Recorded runs -/

/-- A recorded run is one step longer than a state that was expanded. -/
theorem Agenda.maxSteps_findings_le {done waiting : List (List Nat)}
    (hl : task.limits.maxSteps = some limit) (h : task.Agenda done waiting) :
    (task.findings done).maxSteps ≤ max limit 1 := by
  by_cases hzero : (task.findings done).maxSteps = 0
  · rw [hzero]
    exact Nat.zero_le _
  · obtain ⟨order, hvisited, -, hlength⟩ := exists_of_maxSteps_tally hzero
    obtain ⟨before, hbefore, hext⟩ := mem_visited.mp hvisited
    have hlt := (h.reached before (List.mem_append_left _ hbefore)).length_lt hl
    rw [findings, ← hlength, length_of_mem_extensions hext]
    exact hlt

end Task

/-- A complete schedule of one step is that of the first thread, which has to be the only
one: any other would still run. -/
theorem Diagram.Complete.eq_zero {d : Diagram} {inputs : List String} {thread : Nat}
    (h : d.Complete inputs [thread]) : thread = 0 := by
  by_contra hne
  have hlt : thread < d.threads.length := h.schedule.lt thread (by simp)
  have hrun : (d.replay inputs []).machine.isRunning 0 = true :=
    isRunning_start d inputs (Nat.lt_of_le_of_lt thread.zero_le hlt)
  have hstep : (d.replay inputs ([] ++ [thread])).machine.isRunning 0 = true := by
    rw [replay_append_singleton, Replay.isRunning_step_of_ne (Ne.symm hne), hrun]
  have hover := Machine.isOver_iff.mp h.ended 0
  rw [List.nil_append, hover] at hstep
  exact Bool.noConfusion hstep

namespace Task

variable {task : Task} {limit : Nat} {s : Search}

/-- Once a state has been expanded, the run of a single thread and step has been recorded. -/
theorem Agenda.one_le_maxSteps {done waiting : List (List Nat)} (h : task.Agenda done waiting)
    (hne : done ≠ []) (hcomplete : task.diagram.Complete task.inputs [0]) :
    1 ≤ (task.findings done).maxSteps := by
  obtain ⟨first, rest, rfl⟩ := List.exists_cons_of_ne_nil hne
  obtain ⟨rfl, -⟩ := List.cons.inj h.append_eq
  have hschedule : task.diagram.Schedule task.inputs ([] ++ [0]) := hcomplete.schedule
  have hext : [0] ∈ task.extensions [] := mem_extensions.mpr ⟨0, rfl, hschedule.of_snoc.2⟩
  exact length_le_maxSteps_tally (mem_visited.mpr ⟨[], by simp, hext⟩) hcomplete.ended

/-- A run that is too long has one step, under a limit of zero. -/
theorem Agenda.lt_maxSteps_findings_iff {done waiting : List (List Nat)}
    (hl : task.limits.maxSteps = some limit) (h : task.Agenda done waiting) :
    limit < (task.findings done).maxSteps ↔
      limit = 0 ∧ 0 < done.length ∧ task.diagram.Complete task.inputs [0] := by
  have hle := h.maxSteps_findings_le hl
  constructor
  · intro hlt
    have hzero : limit = 0 := by omega
    have hone : (task.findings done).maxSteps = 1 := by omega
    have hne : (task.tally (done.flatMap task.extensions)).maxSteps ≠ 0 := by
      rw [← findings, hone]
      exact Nat.one_ne_zero
    obtain ⟨order, hvisited, hends, hlength⟩ := exists_of_maxSteps_tally hne
    obtain ⟨before, hbefore, hext⟩ := mem_visited.mp hvisited
    obtain ⟨thread, rfl, -⟩ := mem_extensions.mp hext
    have hbefore' : before = [] := by
      have hlength' : (before ++ [thread]).length = 1 := hlength.trans hone
      simpa using hlength'
    subst hbefore'
    have hd := threads_ne_nil_of_mem_visited hvisited
    have hcomplete := h.complete_of_mem_visited hd hvisited hends
    rw [List.nil_append] at hcomplete
    obtain rfl := hcomplete.eq_zero
    exact ⟨hzero, List.length_pos_of_mem hbefore, hcomplete⟩
  · rintro ⟨rfl, hpos, hcomplete⟩
    exact h.one_le_maxSteps (List.length_pos_iff.mp hpos) hcomplete

/-- **A length limit bounds the recorded runs.** Wherever a search gets to, no run that it has
recorded and no report that it gives goes beyond the limit, where a limit of zero acts
like one. So a run is longer than the limit only if the limit is zero; that happens as
soon as a state has been expanded, if there is one thread and it ends with its first step. -/
theorem runs_within_limit (task : Task) (limit : Nat) (hl : task.limits.maxSteps = some limit) :
    (∀ report, task.Gives report → report.maxSteps ≤ max limit 1) ∧
    ∀ s, Search.Reachable task s →
      (∀ steps ∈ s.tally.lengths.keys, steps ≤ max limit 1) ∧
      (limit < s.tally.maxSteps ↔
        limit = 0 ∧ 0 < s.expanded ∧ task.diagram.Complete task.inputs [0]) := by
  refine ⟨fun report h => ?_, fun s hs => ?_⟩
  · obtain ⟨done, waiting, interrupted, hagenda, rfl⟩ := h.findings
    exact hagenda.maxSteps_findings_le hl
  · obtain ⟨done, waiting, hf⟩ := hs.follows.1
    rw [hf.tally, hf.expanded]
    refine ⟨fun steps hmem => ?_, hf.agenda.lt_maxSteps_findings_iff hl⟩
    exact (Table.le_getLast?_keys hmem).trans (hf.agenda.maxSteps_findings_le hl)

/-- Under a limit of three the runs of three steps are recorded, and those of four are not. -/
theorem runs_within_limit_oneReply :
    ∃ last, (oneReply ⟨none, some 3, 1⟩).search 20 = some last ∧ 0 < last.tally.total ∧
      (∀ steps ∈ last.tally.lengths.keys, steps ≤ 3) ∧ ¬ 3 < last.tally.maxSteps := by
  obtain ⟨last, hlast, htotal⟩ : ∃ last ∈ (oneReply ⟨none, some 3, 1⟩).search 20,
      0 < last.tally.total := by
    decide
  obtain ⟨hkeys, hlt⟩ := (runs_within_limit (oneReply ⟨none, some 3, 1⟩) 3 rfl).2 last
    (Search.reachable_of_run .start hlast).1
  exact ⟨last, hlast, htotal, hkeys, fun h => absurd (hlt.mp h).1 (by decide)⟩

/-- A thread that ends with its first step, and nothing else. -/
def oneStep (limits : Limits) : Task where
  diagram := {
    declared := []
    blocks := ⟨[(1, .stop 1 none)], by decide⟩
    threads := [1]
    names_nodup := by decide
    id_of_mem := by decide }
  inputs := []
  expected := []
  limits := limits
  observer := .silent

/-- A limit of zero is exceeded: the run of the only step is counted. -/
theorem exceeds_zero_limit :
    ∃ report, (oneStep ⟨none, some 0, 1⟩).explore 3 = some report ∧
      report.total = 1 ∧ report.maxSteps = 1 := by
  have hrun : ∃ report ∈ (oneStep ⟨none, some 0, 1⟩).explore 3,
      report.total = 1 ∧ report.maxSteps = 1 := by
    decide
  exact hrun

end Task

end Flowchart
