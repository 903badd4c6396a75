import Flowchart.Proofs.Explore.StateCap
import Mathlib.Algebra.BigOperators.Group.Finset.Basic
import Mathlib.Data.Option.Basic

/-!
# Expected lines partition the runs

What lines are expected decides which runs match and nothing else. Searches for different
lines are on the same course (`Search.SameCourse`): they expand the same states in the same
rounds and come to the same end, and only what they have counted differs. So they record the
same runs, and each run matches in exactly one of the searches, the one for the lines that it
prints (`explore_expecting`).
-/

namespace Flowchart

/-- The rate over the runs of at most so many steps, by what a report shows. From its
greatest number of steps on it stays the same. -/
def Report.rateUpTo (r : Report Rate) (k : Nat) : Rate :=
  (r.rates.get? (min k r.maxSteps)).getD .zero

theorem Tally.rateUpTo_report (t : Tally) (interrupted : Bool) (k : Nat) :
    (t.report interrupted).rateUpTo k = t.rateUpTo k := by
  rw [← t.rateUpTo_min k]
  show (t.rates.get? (min k t.maxSteps)).getD .zero = _
  rw [Tally.get?_rates]
  by_cases hpos : 1 ≤ min k t.maxSteps
  · rw [if_pos ⟨hpos, Nat.min_le_right _ _⟩, Option.getD_some]
  · rw [if_neg (fun h => hpos h.1), Nat.lt_one_iff.mp (Nat.not_le.mp hpos), Tally.rateUpTo_zero,
      Option.getD_none]

/-- The same search for other lines. -/
def Task.expecting (task : Task) (expected : List String) : Task :=
  { task with expected := expected }

namespace Search

variable {task : Task} {expected : List String} {s s' : Search}

/-! ## On the same course -/

/-- Two searches that differ at most in what they have counted and reported. -/
structure SameCourse (s s' : Search) : Prop where
  waiting : s'.waiting = s.waiting
  expanded : s'.expanded = s.expanded
  halted : s'.halted = s.halted

theorem SameCourse.visit (h : SameCourse s s') (p : Pending) :
    SameCourse (s.visit task p) (s'.visit (task.expecting expected) p) := by
  unfold Search.visit
  split
  · exact ⟨h.waiting, h.expanded, h.halted⟩
  · show SameCourse _ (if task.limits.cuts p.order.length then _ else _)
    split
    · exact ⟨h.waiting, h.expanded, h.halted⟩
    · exact ⟨congrArg (·.push p) h.waiting, h.expanded, h.halted⟩

theorem SameCourse.expand (h : SameCourse s s') (p : Pending) :
    SameCourse (s.expand task p) (s'.expand (task.expecting expected) p) := by
  have hfold (threads : List Nat) {s s' : Search} (h : SameCourse s s') :
      SameCourse (threads.foldl (fun s thread => s.visit task (p.child task.diagram thread)) s)
        (threads.foldl (fun s thread =>
          s.visit (task.expecting expected) (p.child task.diagram thread)) s') := by
    induction threads generalizing s s' with
    | nil => exact h
    | cons thread threads ih => exact ih (h.visit (p.child task.diagram thread))
  exact hfold p.live ⟨h.waiting, congrArg (· + 1) h.expanded, h.halted⟩

theorem SameCourse.announce (hq : task.observer.Quiet) (h : SameCourse s s') :
    SameCourse (s.announce task) (s'.announce (task.expecting expected)) := by
  unfold Search.announce
  rw [h.expanded]
  show SameCourse _ (if task.limits.reportsAt s.expanded then _ else _)
  split
  · exact ⟨h.waiting, rfl, (hq.ends _).trans (hq.ends _).symm⟩
  · exact h

/-- A state that is taken up in the one search is taken up in the other. -/
theorem SameCourse.expanding? (hq : task.observer.Quiet) (h : SameCourse s s') :
    s'.expanding? (task.expecting expected) = s.expanding? task := by
  unfold Search.expanding?
  rw [h.waiting, h.expanded, h.halted, hq.stops]
  show (if s.halted || (task.observer.stops s.expanded s'.reports || _) then _ else _) = _
  rw [hq.stops]
  rfl

/-- One round keeps two searches on the same course. -/
theorem SameCourse.next? (hq : task.observer.Quiet) (h : SameCourse s s') :
    Option.Rel SameCourse (s.next? task) (s'.next? (task.expecting expected)) := by
  unfold Search.next?
  rw [h.halted, h.waiting]
  split
  · exact .none
  · split
    · exact .none
    · next p rest _ =>
      dsimp only
      rw [h.expanded, hq.stops]
      show Option.Rel _ _
        (if task.observer.stops s.expanded s'.reports || task.limits.stopAfter s.expanded
          then _ else _)
      rw [hq.stops]
      split
      · exact .some ⟨rfl, rfl, rfl⟩
      · have hrest : SameCourse { s with waiting := rest }
            ⟨rest, s'.tally, s.expanded, s'.reports, s.halted⟩ := ⟨rfl, rfl, rfl⟩
        exact .some ((hrest.expand p).announce hq)

/-- And so do all rounds, in which both take up the same states. -/
theorem SameCourse.run (hq : task.observer.Quiet) (h : SameCourse s s') (fuel : Nat) :
    Option.Rel SameCourse (Search.run task fuel s)
        (Search.run (task.expecting expected) fuel s') ∧
      expansions (task.expecting expected) fuel s' = expansions task fuel s := by
  induction fuel generalizing s s' with
  | zero => exact ⟨.none, rfl⟩
  | succ fuel ih =>
      have hnext : Option.Rel SameCourse (s.next? task) (s'.next? (task.expecting expected)) :=
        h.next? hq
      rw [Search.run, Search.run, expansions, expansions, h.expanding? hq]
      revert hnext
      cases s.next? task <;> cases s'.next? (task.expecting expected)
      · exact fun _ => ⟨.some h, rfl⟩
      · intro hnext
        cases hnext
      · intro hnext
        cases hnext
      · intro hnext
        cases hnext with
        | some hnext =>
            obtain ⟨hrun, hexpansions⟩ := ih hnext
            exact ⟨hrun, congrArg _ hexpansions⟩

end Search

namespace Task

variable {task : Task}

/-! ## Which runs match -/

/-- The lines that an order prints. -/
def prints (task : Task) (order : List Nat) : List String :=
  (task.diagram.replay task.inputs order).output

/-- The runs that the search for a task records within so many rounds. -/
def scored (fuel : Nat) (task : Task) : List (List Nat) :=
  ((task.expansions fuel).flatMap task.extensions).filter task.ends

/-- Over different lists of lines, what prints one of them is counted once. -/
theorem sum_countP_prints (task : Task) (test : List Nat → Bool)
    (traces : Finset (List String)) (orders : List (List Nat)) :
    (∑ expected ∈ traces,
        orders.countP fun order => test order && decide (task.prints order = expected))
      = orders.countP fun order => test order && decide (task.prints order ∈ traces) := by
  induction orders with
  | nil => simp
  | cons order orders ih =>
      simp only [List.countP_cons, Finset.sum_add_distrib, ih]
      congr 1
      cases test order with
      | false => simp
      | true => simp [Finset.sum_ite_eq]

/-- So at most all that pass a test are counted, and all of them if each prints one of the
lines. -/
theorem sum_countP_prints_le (task : Task) (test : List Nat → Bool)
    (traces : Finset (List String)) (orders : List (List Nat)) :
    (∑ expected ∈ traces,
        orders.countP fun order => test order && decide (task.prints order = expected))
      ≤ orders.countP test ∧
    ((∑ expected ∈ traces,
        orders.countP fun order => test order && decide (task.prints order = expected))
      = orders.countP test ↔
        ∀ order ∈ orders, test order = true → task.prints order ∈ traces) := by
  rw [sum_countP_prints]
  refine ⟨List.countP_mono_left fun order _ htest => (Bool.and_eq_true_iff.mp htest).1, ?_⟩
  rw [countP_and_eq_countP]
  simp only [decide_eq_true_eq]

/-! ## What is found out -/

/-- The lines that are expected make no difference to the greatest number of steps and to the
totals. -/
theorem findings_expecting (task : Task) (expected : List String) (done : List (List Nat)) :
    ((task.expecting expected).findings done).maxSteps = (task.findings done).maxSteps ∧
      ((task.expecting expected).findings done).total = (task.findings done).total ∧
      ((task.expecting expected).findings done).completed = (task.findings done).completed ∧
      ((task.expecting expected).findings done).truncated = (task.findings done).truncated := by
  refine ⟨?_, ?_, ?_, ?_⟩
  · rw [findings, findings, maxSteps_tally, maxSteps_tally, Tally.maxSteps_ofRuns,
      Tally.maxSteps_ofRuns, recorded, recorded, List.map_map, List.map_map]
    rfl
  · rw [findings, findings, total_tally, total_tally]
    rfl
  · rw [findings, findings, completed_tally, completed_tally]
    rfl
  · rw [findings, findings, truncated_tally, truncated_tally]
    rfl

/-- A report counts the runs that have been visited. -/
theorem rateUpTo_findings (task : Task) (done : List (List Nat)) (interrupted : Bool) (k : Nat) :
    let runs := (done.flatMap task.extensions).filter task.ends
    ((task.findings done).report interrupted).rateUpTo k
      = ⟨runs.countP fun order => decide (order.length ≤ k) && task.meets order,
          runs.countP fun order => decide (order.length ≤ k)⟩ := by
  intro runs
  rw [Tally.rateUpTo_report, findings, rateUpTo_tally ne_nil_of_mem_visited, List.countP_filter,
    List.countP_filter]
  simp only [Bool.and_assoc, Bool.and_comm (task.ends _)]

/-- The search for other lines ends too, and has expanded the same orders. -/
theorem search_expecting (hq : task.observer.Quiet) {fuel : Nat} {last : Search}
    (h : task.search fuel = some last) (expected : List String) :
    ∃ last', (task.expecting expected).search fuel = some last' ∧ last.SameCourse last' ∧
      last'.tally = (task.expecting expected).findings (task.expansions fuel) := by
  have hstart : (Search.start task).SameCourse (Search.start (task.expecting expected)) :=
    ⟨rfl, rfl, rfl⟩
  obtain ⟨hrun, hexpansions⟩ := hstart.run hq fuel
  rw [search] at h
  rw [h] at hrun
  cases hlast : Search.run (task.expecting expected) fuel (Search.start (task.expecting expected))
  case none =>
    rw [hlast] at hrun
    cases hrun
  case some last' =>
    rw [hlast] at hrun
    cases hrun with
    | some hcourse =>
        obtain ⟨waiting, hf⟩ := Search.follows_expansions (Search.follows_start _) hlast
        rw [List.nil_append, hexpansions] at hf
        exact ⟨last', hlast, hcourse, hf.tally⟩

/-- **Expected lines partition the runs.** Whatever limits a search has, when it ends then it
ends for other lines too, with the same totals. It has recorded certain runs, and for each
number of steps the searches for different lines have matched no more of them than there
are, and all of them exactly if these lines are all that they print. -/
theorem explore_expecting (task : Task) (hq : task.observer.Quiet) (fuel : Nat)
    (report : Report Rate) (h : task.explore fuel = some report) :
    ∃ reports : List String → Report Rate, reports task.expected = report ∧
      (∀ expected, (task.expecting expected).explore fuel = some (reports expected) ∧
        (reports expected).maxSteps = report.maxSteps ∧
        (reports expected).total = report.total ∧
        (reports expected).completed = report.completed ∧
        (reports expected).truncated = report.truncated ∧
        (reports expected).interrupted = report.interrupted) ∧
      report.total = (task.scored fuel).length ∧
      ∀ k, (∀ expected, (reports expected).rateUpTo k =
          ⟨(task.scored fuel).countP fun order =>
              decide (order.length ≤ k) && decide (task.prints order = expected),
            (task.scored fuel).countP fun order => decide (order.length ≤ k)⟩) ∧
        ∀ traces : Finset (List String),
          ∑ expected ∈ traces, ((reports expected).rateUpTo k).matched
            ≤ (report.rateUpTo k).runs ∧
          (∑ expected ∈ traces, ((reports expected).rateUpTo k).matched
              = (report.rateUpTo k).runs ↔
            ∀ order ∈ task.scored fuel, order.length ≤ k → task.prints order ∈ traces) := by
  obtain ⟨last, hlast, rfl⟩ := Option.map_eq_some_iff.mp h
  choose lasts hlasts hcourse htally using search_expecting hq hlast
  have hself : lasts task.expected = last := Option.some.inj ((hlasts _).symm.trans hlast)
  have hknown : last.tally = task.findings (task.expansions fuel) := by
    rw [← hself]
    exact htally task.expected
  have hrate (expected : List String) (k : Nat) : (lasts expected).report.rateUpTo k =
      ⟨(task.scored fuel).countP fun order =>
          decide (order.length ≤ k) && decide (task.prints order = expected),
        (task.scored fuel).countP fun order => decide (order.length ≤ k)⟩ := by
    rw [Search.report, htally]
    exact rateUpTo_findings (task.expecting expected) (task.expansions fuel) _ k
  refine ⟨fun expected => (lasts expected).report, congrArg Search.report hself,
    fun expected => ?_, ?_,
    fun k => ⟨fun expected => hrate expected k, fun traces => ?_⟩⟩
  · obtain ⟨hmax, htotal, hcompleted, htruncated⟩ :=
      task.findings_expecting expected (task.expansions fuel)
    rw [← htally, ← hknown] at hmax htotal hcompleted htruncated
    refine ⟨by rw [explore, hlasts]; rfl, hmax, htotal, hcompleted, htruncated, ?_⟩
    show ((lasts expected).halted || decide (0 < (lasts expected).tally.truncated)) = _
    rw [htruncated, (hcourse expected).halted]
    rfl
  · show last.tally.total = _
    rw [hknown, findings, total_tally, scored, List.countP_eq_length_filter]
  · have hruns : (last.report.rateUpTo k).runs
        = (task.scored fuel).countP fun order => decide (order.length ≤ k) := by
      rw [← hself, hrate]
    rw [hruns]
    simpa only [hrate, decide_eq_true_eq] using
      task.sum_countP_prints_le (fun order => decide (order.length ≤ k)) traces (task.scored fuel)

/-- One thread counts, and the other one prints what it finds. -/
def raceToPrint (limits : Limits) : Task where
  diagram := {
    declared := [⟨"hits", .int⟩]
    blocks := ⟨[(1, .assign 1 2 "hits = hits + 1"), (2, .stop 2 none), (3, .print 3 2 "hits")],
      by decide⟩
    threads := [1, 3]
    names_nodup := by decide
    id_of_mem := by decide }
  inputs := []
  expected := ["1"]
  limits := limits
  observer := .silent

/-- A cap on states ends this search, and all runs that it has recorded print one of the two
numbers. -/
theorem explore_expecting_raceToPrint :
    ∃ reports : List String → Report Rate,
      (∀ expected, ((raceToPrint ⟨some 9, none, 1⟩).expecting expected).explore 20
        = some (reports expected)) ∧
      (reports ["0"]).total = (reports ["1"]).total ∧
      ((reports ["0"]).rateUpTo 9).matched + ((reports ["1"]).rateUpTo 9).matched
        = ((reports ["1"]).rateUpTo 9).runs := by
  have hrun : ((raceToPrint ⟨some 9, none, 1⟩).explore 20).isSome = true := by decide +kernel
  obtain ⟨report, hreport⟩ := Option.isSome_iff_exists.mp hrun
  obtain ⟨reports, hown, hall, -, hrates⟩ :=
    explore_expecting (raceToPrint ⟨some 9, none, 1⟩) Observer.quiet_silent 20 report hreport
  obtain ⟨-, hsum⟩ := (hrates 9).2 {["0"], ["1"]}
  have hprints : ∀ order ∈ (raceToPrint ⟨some 9, none, 1⟩).scored 20, order.length ≤ 9 →
      (raceToPrint ⟨some 9, none, 1⟩).prints order ∈ ({["0"], ["1"]} : Finset (List String)) := by
    decide +kernel
  have hparts := hsum.mpr hprints
  rw [Finset.sum_pair (by decide)] at hparts
  subst hown
  exact ⟨reports, fun expected => (hall expected).1, (hall ["0"]).2.2.1, hparts⟩

end Task

end Flowchart
