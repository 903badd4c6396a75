import Flowchart.Proofs.Explore.StateCap

/-!
# Reports of progress

A report of progress shows what a search knows after some number of expanded states. The same
is known by a search that may expand no more than so many, so each report of progress is
the final report of a capped search (`explore_progress`). This is so because what a search
has done is determined by how much it has done (`Agenda.eq_of_length`), whoever watches it.

`Search.Ledger` is the invariant: after every interval of expanded states there is one more
report, and the report is what the agenda had found out at that point.
-/

namespace Flowchart

/-- None of the counts of one report is greater than that of another. -/
structure Report.AtMost (a b : Report Rate) : Prop where
  total : a.total ≤ b.total
  completed : a.completed ≤ b.completed
  truncated : a.truncated ≤ b.truncated
  maxSteps : a.maxSteps ≤ b.maxSteps

namespace Task

variable {task : Task} {done done' waiting : List (List Nat)}

/-- The same search, with nobody watching. -/
def unobserved (task : Task) : Task :=
  { task with observer := .silent }

/-- The same search, with nobody watching, that may expand so many states. -/
def capped (task : Task) (cap : Nat) : Task :=
  { task.unobserved with limits := { task.limits with maxStates := some cap } }

theorem Agenda.of_capped {cap : Nat} (h : (task.capped cap).Agenda done waiting) :
    task.Agenda done waiting :=
  have hopened (order : List Nat) : task.opened order = (task.capped cap).opened order := rfl
  h.of_opened_eq hopened

/-! ## What is known grows -/

theorem tally_atMost (task : Task) (orders more : List (List Nat)) (a b : Bool) :
    ((task.tally orders).report a).AtMost ((task.tally (orders ++ more)).report b) where
  total := by
    show (task.tally orders).total ≤ (task.tally (orders ++ more)).total
    rw [total_tally, total_tally]
    exact (List.sublist_append_left orders more).countP_le
  completed := by
    show (task.tally orders).completed ≤ (task.tally (orders ++ more)).completed
    rw [completed_tally, completed_tally]
    exact (List.sublist_append_left orders more).countP_le
  truncated := by
    show (task.tally orders).truncated ≤ (task.tally (orders ++ more)).truncated
    rw [truncated_tally, truncated_tally]
    exact (List.sublist_append_left orders more).countP_le
  maxSteps := by
    show (task.tally orders).maxSteps ≤ (task.tally (orders ++ more)).maxSteps
    by_cases hzero : (task.tally orders).maxSteps = 0
    · rw [hzero]
      exact Nat.zero_le _
    · -- the longest run so far is still there
      obtain ⟨order, hmem, hends, hlen⟩ := exists_of_maxSteps_tally hzero
      rw [← hlen]
      exact length_le_maxSteps_tally (List.mem_append_left _ hmem) hends

theorem findings_atMost (h : done <+: done') (a b : Bool) :
    ((task.findings done).report a).AtMost ((task.findings done').report b) := by
  obtain ⟨more, rfl⟩ := h
  rw [findings, findings, List.flatMap_append]
  exact task.tally_atMost _ _ a b

/-! ## Capped searches -/

/-- **A search that may expand as many states as an agenda has done knows the same.** -/
theorem explore_capped_of_agenda (h : task.Agenda done waiting) :
    (∃ fuel full, (task.capped done.length).explore fuel = some full) ∧
      ∀ fuel full, (task.capped done.length).explore fuel = some full →
        { full with interrupted := false } = (task.findings done).report false := by
  have hquiet : (task.capped done.length).observer.Quiet := Observer.quiet_silent
  constructor
  · obtain ⟨last, hlast⟩ := Search.exists_run_of_expanded_le
      (fun s (hs : Search.Reachable (task.capped done.length) s) => hs.expanded_le rfl) .start
    exact ⟨_, last.report, by rw [explore, search, hlast]; rfl⟩
  · intro fuel full hfull
    obtain ⟨last, hlast, rfl⟩ := Option.map_eq_some_iff.mp hfull
    obtain ⟨waiting', hf, hle, hend, -⟩ := agenda_of_capped hquiet rfl hlast
    generalize (task.capped done.length).expansions fuel = expanded at hf hle hend
    have hagenda : task.Agenda expanded waiting' := hf.agenda.of_capped
    have hlen : expanded.length = done.length := by
      rcases hend with rfl | hend
      · exact Nat.le_antisymm hle (hagenda.length_le_of_ended h)
      · exact hend
    obtain ⟨rfl, -⟩ := hagenda.eq_of_length h hlen
    have htally : last.tally = task.findings expanded := hf.tally
    rw [Search.report, htally]
    rfl

end Task

namespace Search

variable {task : Task} {s : Search}

/-! ## The reports on the way -/

/-- The reports of progress of a search that has expanded so many states. -/
structure Ledger (task : Task) (s : Search) : Prop where
  count : s.reports.length = s.expanded / task.limits.interval
  entry : ∀ j report, s.reports.reverse[j]? = some report → ∃ done waiting,
    task.Agenda done waiting ∧ done.length = (j + 1) * task.limits.interval ∧
      report = (task.findings done).report false

theorem ledger_start (task : Task) : (Search.start task).Ledger task where
  count := (Nat.zero_div _).symm
  entry := by
    intro j report h
    simp [Search.start] at h

theorem Ledger.next {next : Search} (hs : Reachable task s) (h : s.Ledger task)
    (hnext : s.next? task = some next) : next.Ledger task := by
  obtain ⟨done, waiting, hf⟩ := hs.follows.1
  rcases next?_cases hf hnext with ⟨heq, _, _, _⟩ | ⟨order, rest, rfl, _, hf', hrep⟩
  · rw [heq]
    exact ⟨h.count, h.entry⟩
  · have hexpanded : next.expanded = s.expanded + 1 := by
      rw [hf'.expanded, hf.expanded, List.length_append, List.length_singleton]
    rcases hrep with ⟨hquiet, hreports, _⟩ | ⟨hreport, hreports, _⟩
    · -- no report is due, so the number of whole intervals is the same
      have hdvd : ¬ task.limits.interval ∣ s.expanded + 1 := by
        rw [Limits.reportsAt, hexpanded, decide_eq_false_iff_not] at hquiet
        exact fun hdvd => hquiet (Nat.mod_eq_zero_of_dvd hdvd)
      refine ⟨?_, by rw [hreports]; exact h.entry⟩
      rw [hreports, hexpanded, Nat.succ_div_of_not_dvd hdvd]
      exact h.count
    · have hdvd : task.limits.interval ∣ s.expanded + 1 := by
        rw [Limits.reportsAt, hexpanded, decide_eq_true_eq] at hreport
        exact Nat.dvd_of_mod_eq_zero hreport
      refine ⟨?_, fun j report hj => ?_⟩
      · rw [hreports, hexpanded, Nat.succ_div_of_dvd hdvd, List.length_cons, h.count]
      · rw [hreports, List.reverse_cons] at hj
        by_cases hold : j < s.reports.reverse.length
        · rw [List.getElem?_append_left hold] at hj
          exact h.entry j report hj
        · -- the report that is new counts all states up to here
          rw [List.getElem?_append_right (Nat.not_lt.mp hold),
            List.getElem?_singleton, Option.ite_none_right_eq_some] at hj
          obtain ⟨hlast, hj⟩ := hj
          have hindex : j = s.expanded / task.limits.interval := by
            rw [List.length_reverse, h.count] at hlast hold
            omega
          refine ⟨done ++ [order], _, hf'.agenda, ?_, (Option.some.inj hj).symm⟩
          rw [← hf'.expanded, hexpanded, hindex, ← Nat.succ_div_of_dvd hdvd,
            Nat.div_mul_cancel hdvd]

theorem Reachable.ledger (hs : Reachable task s) : s.Ledger task := by
  induction hs with
  | start => exact ledger_start task
  | next hs hnext ih => exact ih.next hs hnext

/-- A break at the latest report has ended the search, right after that report. -/
theorem Reachable.halted_of_ends (hs : Reachable task s) (hne : s.reports ≠ [])
    (hends : task.observer.ends s.reports = true) :
    s.halted = true ∧ ∃ earlier, s.reports = s.tally.report false :: earlier := by
  induction hs with
  | start => exact absurd rfl hne
  | @next s next hs hnext ih =>
      obtain ⟨done, waiting, hf⟩ := hs.follows.1
      -- there is no round after a break
      have hgo : s.reports ≠ [] → task.observer.ends s.reports = true → False := fun hne hends => by
        obtain ⟨hhalted, -⟩ := ih hne hends
        simp [next?, hhalted] at hnext
      rcases next?_cases hf hnext with ⟨heq, _, _, _⟩ | ⟨order, rest, rfl, _, hf', hrep⟩
      · rw [heq] at hne hends
        exact (hgo hne hends).elim
      · rcases hrep with ⟨_, hreports, _⟩ | ⟨_, hreports, hhalted⟩
        · rw [hreports] at hne hends
          exact (hgo hne hends).elim
        · exact ⟨hhalted.trans hends, s.reports, by rw [hreports, hf'.tally]⟩

/-- The reports of progress that a search has given, told by the reports of other
searches. -/
structure Progress (task : Task) (s : Search) : Prop where
  /-- There is one after each interval of expanded states. -/
  count : s.reports.length = s.expanded / task.limits.interval
  /-- Each is the final report of a search that may expand as many states, except that it
  does not tell whether something was left out. -/
  capped : ∀ j report, s.reports.reverse[j]? = some report →
    report.interrupted = false ∧
      (∃ fuel full, (task.capped ((j + 1) * task.limits.interval)).explore fuel = some full) ∧
      ∀ fuel full, (task.capped ((j + 1) * task.limits.interval)).explore fuel = some full →
        { full with interrupted := false } = report
  /-- After a break the report is the final one. -/
  broken : ∀ report earlier, s.reports = report :: earlier →
    task.observer.ends s.reports = true →
      (∃ fuel, task.explore fuel = some { report with interrupted := true }) ∧
      ∀ fuel final, task.explore fuel = some final → final = { report with interrupted := true }
  /-- No count becomes smaller from one report to the next, nor in the end. -/
  growing : (s.report :: s.reports).Pairwise fun later earlier => earlier.AtMost later

theorem Reachable.growing (hs : Reachable task s) :
    (s.report :: s.reports).Pairwise fun later earlier => earlier.AtMost later := by
  obtain ⟨done, waiting, hf⟩ := hs.follows.1
  have hledger := hs.ledger
  refine List.pairwise_cons.mpr ⟨fun report hmem => ?_, ?_⟩
  · obtain ⟨j, hj⟩ := List.mem_iff_getElem?.mp (List.mem_reverse.mpr hmem)
    obtain ⟨done', waiting', hagenda, hlen, rfl⟩ := hledger.entry j report hj
    -- the report was given within the states expanded up to here
    have hle : done'.length ≤ done.length := by
      have hlt := (List.getElem?_eq_some_iff.mp hj).1
      rw [List.length_reverse, hledger.count] at hlt
      rw [hlen, ← hf.expanded]
      exact (Nat.mul_le_mul_right _ hlt).trans (Nat.div_mul_le_self _ _)
    rw [Search.report, hf.tally]
    exact Task.findings_atMost (hagenda.prefix_of_length_le hf.agenda hle) _ _
  · rw [← List.reverse_reverse s.reports, List.pairwise_reverse, List.pairwise_iff_getElem]
    intro i j hi hj hlt
    obtain ⟨early, _, hearly, hearlyLength, heq⟩ :=
      hledger.entry i _ (List.getElem?_eq_getElem hi)
    obtain ⟨late, _, hlate, hlateLength, heq'⟩ := hledger.entry j _ (List.getElem?_eq_getElem hj)
    rw [heq, heq']
    refine Task.findings_atMost (hearly.prefix_of_length_le hlate ?_) _ _
    rw [hearlyLength, hlateLength]
    exact Nat.mul_le_mul_right _ (by omega)

theorem Reachable.progress (hs : Reachable task s) : s.Progress task where
  count := hs.ledger.count
  capped := by
    intro j report hj
    obtain ⟨done, waiting, hagenda, hlen, rfl⟩ := hs.ledger.entry j report hj
    rw [← hlen]
    exact ⟨rfl, Task.explore_capped_of_agenda hagenda⟩
  broken := by
    intro report earlier hreports hends
    obtain ⟨hhalted, _, hlatest⟩ := hs.halted_of_ends (by simp [hreports]) hends
    obtain ⟨rfl, -⟩ := List.cons.inj (hreports.symm.trans hlatest)
    have hfinal : s.report = { s.tally.report false with interrupted := true } := by
      rw [Search.report, hhalted]
      rfl
    have hended : s.next? task = none := by simp [next?, hhalted]
    obtain ⟨⟨fuel, hfuel⟩, hall⟩ := hs.search_of_ended hended
    refine ⟨⟨fuel, by rw [Task.explore, hfuel, Option.map_some, hfinal]⟩, fun fuel final h => ?_⟩
    obtain ⟨last, hlast, rfl⟩ := Option.map_eq_some_iff.mp h
    rw [hall fuel last hlast, hfinal]
  growing := hs.growing

end Search

namespace Task

end Task

end Flowchart
