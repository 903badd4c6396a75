import Flowchart.Proofs.Explore.Independence
import Flowchart.Suite

/-!
# The verdict on test cases

A case passes when the report of its search has runs and all of them matched. A search
that has left nothing out has followed every live schedule, so its runs are all runs of
the diagram, and the verdict says what it is meant to say: there is a run, and every run
prints what is expected (`allPassed_iff_holdsIn`).

No limit on the length of schedules is needed for that, and none does harm: whether the
limit has cut anything is something that the report itself tells, by the number of
schedules that were given up.
-/

namespace Flowchart

namespace Rate

/-- A rate is full when it shows as a hundred percent. -/
theorem isFull_iff (rate : Rate) : rate.isFull = true ↔ rate.exactPercent = 100 := by
  rw [isFull, Bool.and_eq_true, decide_eq_true_eq, decide_eq_true_eq]
  constructor
  · rintro ⟨hpos, hall⟩
    exact exactPercent_of_all hall hpos
  · intro hpercent
    -- without runs the quotient counts as zero
    have hpos : 0 < rate.runs := by
      refine Nat.pos_of_ne_zero fun hzero => ?_
      rw [exactPercent, hzero, Nat.cast_zero, div_zero] at hpercent
      exact absurd hpercent (by norm_num)
    refine ⟨hpos, ?_⟩
    have hne : (rate.runs : ℚ) ≠ 0 := Nat.cast_ne_zero.mpr (Nat.ne_of_gt hpos)
    rw [exactPercent, div_eq_iff hne] at hpercent
    exact Nat.cast_injective (mul_left_cancel₀ (by norm_num) hpercent)

end Rate

namespace Task

variable {task : Task} {done : List (List Nat)}

/-! ## Searches that leave nothing out -/

/-- When nothing waits and nothing was given up, every live schedule is done. -/
theorem Agenda.mem_done_of_live (h : task.Agenda done [])
    (huncut : (task.findings done).truncated = 0) {order : List Nat}
    (hlive : task.diagram.Live task.inputs order) : order ∈ done := by
  induction order using List.reverseRecOn with
  | nil =>
      have hmem := h.mem_iff.mpr (.inl rfl)
      rwa [List.append_nil] at hmem
  | append_singleton before thread ih =>
      have hbefore := ih hlive.schedule.live_of_snoc
      have hext : before ++ [thread] ∈ task.extensions before :=
        mem_extensions.mpr ⟨thread, rfl, hlive.schedule.of_snoc.2⟩
      -- it was visited, and had it been cut then it would have been counted
      rw [findings, truncated_tally, List.countP_eq_zero] at huncut
      have hcut := huncut _ (mem_visited.mpr ⟨before, hbefore, hext⟩)
      have hends : task.ends (before ++ [thread]) = false := hlive.goesOn
      rw [hends, Bool.not_false, Bool.true_and, Bool.not_eq_true] at hcut
      have hmem := h.mem_iff.mpr (.inr ⟨before, hbefore, mem_opened.mpr ⟨hext, hends, hcut⟩⟩)
      rwa [List.append_nil] at hmem

/-- So the runs that were visited are all complete schedules. -/
theorem Agenda.complete_iff (h : task.Agenda done []) (hd : task.diagram.threads ≠ [])
    (huncut : (task.findings done).truncated = 0) (order : List Nat) :
    task.diagram.Complete task.inputs order ↔
      order ∈ done.flatMap task.extensions ∧ task.ends order = true := by
  constructor
  · intro hcomplete
    obtain ⟨before, thread, rfl, hlive, hrun⟩ := hcomplete.eq_snoc hd
    refine ⟨mem_visited.mpr ⟨before, h.mem_done_of_live huncut hlive, ?_⟩, hcomplete.ended⟩
    exact mem_extensions.mpr ⟨thread, rfl, hrun⟩
  · rintro ⟨hvisited, hends⟩
    exact h.complete_of_mem_visited hd hvisited hends

/-! ## What passes -/

/-- A report passes when a run was visited and all visited runs match. -/
theorem passes_findings_iff (interrupted : Bool) :
    ((task.findings done).report interrupted).passes Rate.isFull = true ↔
      (∃ order ∈ done.flatMap task.extensions, task.ends order = true) ∧
        ∀ order ∈ done.flatMap task.extensions, task.ends order = true →
          task.meets order = true := by
  have htotal : ((task.findings done).report interrupted).total = _ :=
    total_tally task (done.flatMap task.extensions)
  rw [Report.passes, Bool.and_eq_true, decide_eq_true_eq, htotal, List.countP_pos_iff]
  refine and_congr_right ?_
  rintro ⟨order, hvisited, hends⟩
  rw [findings, overall?_tally ne_nil_of_mem_visited hvisited hends, Option.any_some, Rate.isFull, Bool.and_eq_true,
    decide_eq_true_eq, decide_eq_true_eq,
    and_iff_right (List.countP_pos_iff.mpr ⟨order, hvisited, hends⟩)]
  exact countP_and_eq_countP task.ends task.meets _

end Task

/-! ## Cases and suites -/

/-- What a case asks of a diagram: that there is a run with its replies, and that every
such run prints what is expected. A diagram without threads runs nothing. -/
structure Case.HoldsIn (c : Case) (d : Diagram) : Prop where
  threads : d.threads ≠ []
  exists_complete : ∃ order, d.Complete c.input order
  output_eq : ∀ order, d.Complete c.input order → (d.replay c.input order).output = c.expected

section

variable {d : Diagram} {limits : Limits} {observer : Observer} {fuel : Nat}

/-- The verdict on one case, when its search has left nothing out. -/
theorem Case.passes_iff {c : Case} (hq : observer.Quiet) (hstates : limits.maxStates = none)
    {report : Report Rate} (h : (c.task d limits observer).explore fuel = some report)
    (hfull : report.interrupted = false) : report.passes Rate.isFull = true ↔ c.HoldsIn d := by
  obtain ⟨done, hagenda, rfl⟩ := Task.agenda_of_explore hq hstates h
  have huncut : ((c.task d limits observer).findings done).truncated = 0 :=
    Nat.eq_zero_of_not_pos (of_decide_eq_false hfull)
  have hcomplete (hd : d.threads ≠ []) (order : List Nat) :=
    hagenda.complete_iff hd huncut order
  rw [Task.passes_findings_iff]
  constructor
  · rintro ⟨⟨order, hvisited, hends⟩, hmeets⟩
    have hd := Task.threads_ne_nil_of_mem_visited hvisited
    refine ⟨hd, ⟨order, (hcomplete hd order).mpr ⟨hvisited, hends⟩⟩, ?_⟩
    intro other hother
    obtain ⟨hvisited', hends'⟩ := (hcomplete hd other).mp hother
    exact of_decide_eq_true (hmeets other hvisited' hends')
  · rintro ⟨hd, ⟨order, horder⟩, houtput⟩
    refine ⟨⟨order, (hcomplete hd order).mp horder⟩, ?_⟩
    intro other hvisited hends
    exact decide_eq_true (houtput other ((hcomplete hd other).mpr ⟨hvisited, hends⟩))

/-- A suite has one report for each case, under its name and in the order of the cases. -/
theorem forall₂_of_exploreSuite {cases : List Case} {reports : List (String × Report Rate)}
    (h : exploreSuite fuel d limits observer cases = some reports) :
    List.Forall₂ (fun c entry => entry.1 = c.name ∧
      (c.task d limits observer).explore fuel = some entry.2) cases reports := by
  have hreports := mapM_eq_some_iff.mp h
  rw [← List.forall₂_eq_eq_eq, List.forall₂_map_left_iff, List.forall₂_map_right_iff] at hreports
  refine hreports.imp fun c entry hentry => ?_
  obtain ⟨report, hreport, rfl⟩ := Option.map_eq_some_iff.mp hentry
  exact ⟨rfl, hreport⟩

end

/-- **The verdict is sound and complete.** When no search of a suite has left anything
out, the suite passes exactly if every case holds. It makes no difference whether a rate
passes for its counts or for its percentage. -/
theorem allPassed_iff_holdsIn (d : Diagram) (cases : List Case) (limits : Limits)
    (observer : Observer) (hq : observer.Quiet) (hstates : limits.maxStates = none) (fuel : Nat)
    (reports : List (String × Report Rate))
    (h : exploreSuite fuel d limits observer cases = some reports)
    (hfull : ∀ entry ∈ reports, entry.2.interrupted = false) :
    (allPassed (fun rate => decide (rate.exactPercent = 100)) reports = true ↔
        ∀ c ∈ cases, c.HoldsIn d) ∧
      (allPassed Rate.isFull reports = true ↔ ∀ c ∈ cases, c.HoldsIn d) := by
  have hpercent : (fun rate : Rate => decide (rate.exactPercent = 100)) = Rate.isFull := by
    funext rate
    rw [Bool.eq_iff_iff, decide_eq_true_eq, rate.isFull_iff]
  rw [hpercent, and_self, allPassed, List.all_eq_true]
  have hreports := forall₂_of_exploreSuite h
  clear h
  induction hreports with
  | nil => simp
  | @cons c entry cases reports hentry hrest ih =>
      rw [List.forall_mem_cons] at hfull ⊢
      rw [List.forall_mem_cons]
      exact and_congr (c.passes_iff hq hstates hentry.2 hfull.1) (ih hfull.2)

/-- With a reply and without one the other thread still prints its line. -/
def countAndAskCases : List Case :=
  [⟨"reply", ["7"], ["2"], none⟩, ⟨"no-reply", [], ["2"], some 9⟩]

/-- A suite that passes, in which a run of the second case ends with a failed thread. -/
theorem allPassed_iff_holdsIn_countAndAsk :
    ∃ reports, exploreSuite 40 countAndAsk .standard .silent countAndAskCases = some reports ∧
      (∀ entry ∈ reports, entry.2.interrupted = false) ∧
      allPassed Rate.isFull reports = true ∧ ∀ c ∈ countAndAskCases, c.HoldsIn countAndAsk := by
  have hrun : (exploreSuite 40 countAndAsk .standard .silent countAndAskCases).any
      (fun reports => reports.all (fun entry => !entry.2.interrupted)
        && allPassed Rate.isFull reports) = true := by
    decide +kernel
  obtain ⟨reports, hreports, htest⟩ := (Option.any_eq_true _ _).mp hrun
  obtain ⟨hfull, hpassed⟩ := Bool.and_eq_true_iff.mp htest
  have hfull : ∀ entry ∈ reports, entry.2.interrupted = false := by
    simpa using hfull
  have hverdict := allPassed_iff_holdsIn countAndAsk countAndAskCases .standard .silent
    Observer.quiet_silent rfl 40 reports hreports hfull
  exact ⟨reports, hreports, hfull, hpassed, hverdict.2.mp hpassed⟩

end Flowchart
