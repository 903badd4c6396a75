import Flowchart.Proofs.Explore.Bounds
import Flowchart.Proofs.Explore.Progress
import Flowchart.Proofs.Explore.Verdict

/-!
# What an interrupted search has left out

A report calls a search interrupted when the search was ended early, or when it has given
up a schedule. That is meant to say that some schedule was not followed to its end, and
mostly it does: a search is ended by a stop or by its cap only with a state in hand that
it does not expand, and what was given up is live and never expanded.

A break at a report of progress is different. It is obeyed without a look at the queue,
so a break at a report that comes after the last state ends a search that was over anyway.
Such a search is called interrupted and has left nothing out. There is no other case
(`explore_interrupted_iff`).
-/

namespace Flowchart

namespace Search

variable {task : Task} {s : Search} {done waiting : List (List Nat)}

/-- A search that has ended was ended early if something waits or it was broken off. -/
theorem Reachable.halted_iff (hs : Reachable task s) (hended : s.next? task = none)
    (hf : s.Follows task done waiting) :
    s.halted = true ↔ waiting ≠ [] ∨ s.BrokenOff task := by
  constructor
  · exact fun hhalted => (hs.halted_cases hhalted hf).imp_left And.left
  · rintro (hne | ⟨hne, hends⟩)
    · exact ((next?_eq_none_iff hf).mp hended).resolve_right hne
    · exact (hs.halted_of_ends hne hends).1

end Search

namespace Task

variable {task : Task} {done waiting : List (List Nat)}

/-- The live schedules that the search for a task does not expand within so many rounds. -/
def leftOut (fuel : Nat) (task : Task) : Set (List Nat) :=
  {order | task.diagram.Live task.inputs order ∧ order ∉ task.expansions fuel}

/-- A live schedule is not done if something waits or was given up, and only then. -/
theorem Agenda.exists_live_not_done_iff (hd : task.diagram.threads ≠ [])
    (h : task.Agenda done waiting) :
    (∃ order, task.diagram.Live task.inputs order ∧ order ∉ done) ↔
      waiting ≠ [] ∨ 0 < (task.findings done).truncated := by
  constructor
  · rintro ⟨order, hlive, hnot⟩
    by_contra hnone
    obtain ⟨hwaiting, huncut⟩ := not_or.mp hnone
    obtain rfl := not_not.mp hwaiting
    exact hnot (h.mem_done_of_live (Nat.eq_zero_of_not_pos huncut) hlive)
  · rintro (hwaiting | hcut)
    · obtain ⟨order, rest, rfl⟩ := List.exists_cons_of_ne_nil hwaiting
      refine ⟨order, (h.isOpen hd order (by simp)).live, fun hdone => ?_⟩
      exact (List.nodup_append.mp h.nodup).2.2 order hdone order (by simp) rfl
    · -- what was given up goes on, and is too long to be expanded
      rw [findings, truncated_tally, List.countP_pos_iff] at hcut
      obtain ⟨order, hvisited, hcut⟩ := hcut
      rw [Bool.and_eq_true, Bool.not_eq_true'] at hcut
      obtain ⟨before, hbefore, hext⟩ := mem_visited.mp hvisited
      have hopen := h.isOpen hd before (List.mem_append_left _ hbefore)
      refine ⟨order, ⟨schedule_of_mem_extensions hopen.live.schedule hext, hcut.1⟩,
        fun hdone => ?_⟩
      have huncut := (h.isOpen hd order (List.mem_append_left _ hdone)).uncut.resolve_left
        (ne_nil_of_mem_visited order hvisited)
      rw [huncut] at hcut
      exact Bool.noConfusion hcut.2

/-- **A search is called interrupted if it has left something out or was broken off.** What
it leaves out are live schedules that it never expands: they were still waiting, or in hand
when it was ended, or given up. Only a search that was broken off at a report of progress
can be called interrupted and have left nothing out. -/
theorem explore_interrupted_iff (task : Task) (hd : task.diagram.threads ≠ []) (fuel : Nat)
    (last : Search) (h : task.search fuel = some last) :
    last.report.interrupted = true ↔
      (task.leftOut fuel).Nonempty ∨ last.BrokenOff task := by
  obtain ⟨hreach, hended⟩ := Search.reachable_of_run .start h
  obtain ⟨waiting, hf⟩ : ∃ waiting, last.Follows task (task.expansions fuel) waiting :=
    Search.follows_expansions (Search.follows_start task) h
  calc last.report.interrupted = true
      ↔ last.halted = true ∨ 0 < last.tally.truncated := by
        show (last.halted || decide (0 < last.tally.truncated)) = true ↔ _
        rw [Bool.or_eq_true, decide_eq_true_eq]
    _ ↔ (waiting ≠ [] ∨ 0 < (task.findings (task.expansions fuel)).truncated) ∨
          last.BrokenOff task := by
        rw [hreach.halted_iff hended hf, hf.tally, or_right_comm]
    _ ↔ (task.leftOut fuel).Nonempty ∨ last.BrokenOff task := by
        rw [← hf.agenda.exists_live_not_done_iff hd]
        rfl

/-- A cap of three states ends a search that nobody breaks off, so there is a live schedule
that it has not expanded. -/
theorem explore_interrupted_iff_oneReply :
    ∃ last, (oneReply ⟨some 3, none, 1⟩).search 20 = some last ∧
      last.report.interrupted = true ∧ ((oneReply ⟨some 3, none, 1⟩).leftOut 20).Nonempty := by
  obtain ⟨last, hlast, hinterrupted⟩ : ∃ last ∈ (oneReply ⟨some 3, none, 1⟩).search 20,
      last.report.interrupted = true := by
    decide
  have hiff := explore_interrupted_iff (oneReply ⟨some 3, none, 1⟩) (by decide) 20 last hlast
  refine ⟨last, hlast, hinterrupted, (hiff.mp hinterrupted).resolve_right fun hbroken => ?_⟩
  exact Bool.noConfusion hbroken.2

/-- A break at the first report. -/
def brokenAtOnce (task : Task) : Task :=
  { task with observer := ⟨fun _ _ => false, fun _ => true⟩ }

/-- A break after the only state there is to expand leaves nothing out, and the search is
called interrupted all the same. -/
theorem interrupted_with_nothing_left_out :
    ∃ last, (oneStep ⟨none, none, 1⟩).brokenAtOnce.search 3 = some last ∧
      last.report.interrupted = true ∧ last.report.total = 1 ∧
      (oneStep ⟨none, none, 1⟩).brokenAtOnce.leftOut 3 = ∅ := by
  obtain ⟨last, hlast, hinterrupted, htotal⟩ :
      ∃ last ∈ (oneStep ⟨none, none, 1⟩).brokenAtOnce.search 3,
        last.report.interrupted = true ∧ last.report.total = 1 := by
    decide
  refine ⟨last, hlast, hinterrupted, htotal, Set.not_nonempty_iff_eq_empty.mp fun hleft => ?_⟩
  -- the empty order is expanded, and it opens up to nothing
  have hagenda : (oneStep ⟨none, none, 1⟩).brokenAtOnce.Agenda [[]] [] :=
    .expand .start
  have hnot := (hagenda.exists_live_not_done_iff (by decide)).mp hleft
  exact absurd hnot (by decide)

end Task

end Flowchart
