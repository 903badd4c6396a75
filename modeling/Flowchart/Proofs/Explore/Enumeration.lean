import Flowchart.Proofs.Explore.Rounds

/-!
# What the reports of a search count

Two facts about reports. A search that nobody ends early and that no cap on states
ends reports every run within its length limit exactly once (`explore_enumerates`).
And whatever ends a search, and whenever it reports, the rates below the greatest
number of steps are final (`rates_final`): breadth-first order means that a run of
some length is recorded only after all shorter ones.

Both are about the orders that a run is an extension of. The runs that a report
counts are the ends among the extensions of what was expanded, so it is enough to
say which schedules those are.
-/

namespace Flowchart

/-- Someone who only watches. -/
structure Observer.Quiet (observer : Observer) : Prop where
  stops : ∀ expanded reports, observer.stops expanded reports = false
  ends : ∀ reports, observer.ends reports = false

theorem Observer.quiet_silent : Observer.silent.Quiet := ⟨fun _ _ => rfl, fun _ => rfl⟩

/-- In the search for the task the observer neither stops it nor ends it at a report. -/
structure Task.Undisturbed (task : Task) : Prop where
  stops : ∀ s, Search.Reachable task s → task.observer.stops s.expanded s.reports = false
  ends : ∀ s, Search.Reachable task s → s.reports ≠ [] → task.observer.ends s.reports = false

theorem Observer.Quiet.undisturbed {task : Task} (hq : task.observer.Quiet) : task.Undisturbed :=
  ⟨fun _ _ => hq.stops _ _, fun _ _ _ => hq.ends _⟩

namespace Task

variable {task : Task}

/-! ## The runs of a task -/

/-- The complete schedules of at most so many steps. -/
def runsUpTo (task : Task) (k : Nat) : Set (List Nat) :=
  {order | task.diagram.Complete task.inputs order ∧ order.length ≤ k}

/-- The complete schedules within the length limit. -/
def runs (task : Task) : Set (List Nat) :=
  {order | task.diagram.Complete task.inputs order ∧
    ∀ limit, task.limits.maxSteps = some limit → order.length ≤ limit}

/-- The schedules that are given up: they are live and as long as the limit. -/
def givenUp (task : Task) : Set (List Nat) :=
  {order | task.diagram.Live task.inputs order ∧ task.limits.maxSteps = some order.length}

/-- A report that counts every run within the limit exactly once, and nothing else. -/
structure Exact (task : Task) (report : Report Rate) : Prop where
  finite_runs : task.runs.Finite
  finite_givenUp : task.givenUp.Finite
  total : report.total = task.runs.ncard
  completed : report.completed = {order ∈ task.runs | task.clean order = true}.ncard
  truncated : report.truncated = task.givenUp.ncard
  rates : ∀ k, report.rates.get? k =
    if 1 ≤ k ∧ k ≤ report.maxSteps then
      some ⟨{order ∈ task.runs | order.length ≤ k ∧ task.meets order = true}.ncard,
        {order ∈ task.runs | order.length ≤ k}.ncard⟩
    else none
  length_le : ∀ order ∈ task.runs, order.length ≤ report.maxSteps
  maxSteps_attained : report.maxSteps ≠ 0 → ∃ order ∈ task.runs, order.length = report.maxSteps
  interrupted : report.interrupted = true ↔ 0 < report.truncated

/-! ## Which schedules have been visited -/

theorem complete_of_mem_extensions {before order : List Nat} (hb : task.Open before)
    (h : order ∈ task.extensions before) (hends : task.ends order = true) :
    task.diagram.Complete task.inputs order :=
  ⟨schedule_of_mem_extensions hb.live.schedule h, hends⟩

/-- The visited extensions of done orders, said without the list. -/
theorem mem_visited {done : List (List Nat)} {order : List Nat} :
    order ∈ done.flatMap task.extensions ↔ ∃ before ∈ done, order ∈ task.extensions before :=
  List.mem_flatMap

/-- A visited order that is an end is a complete schedule. -/
theorem Agenda.complete_of_mem_visited {done waiting : List (List Nat)} {order : List Nat}
    (h : task.Agenda done waiting) (hd : task.diagram.threads ≠ [])
    (hmem : order ∈ done.flatMap task.extensions) (hends : task.ends order = true) :
    task.diagram.Complete task.inputs order := by
  obtain ⟨before, hbefore, hext⟩ := mem_visited.mp hmem
  exact complete_of_mem_extensions (h.isOpen hd before (List.mem_append_left _ hbefore)) hext hends

/-- Without threads nothing is visited. -/
theorem threads_ne_nil_of_mem_visited {done : List (List Nat)} {order : List Nat}
    (h : order ∈ done.flatMap task.extensions) : task.diagram.threads ≠ [] := by
  obtain ⟨before, -, hext⟩ := mem_visited.mp h
  obtain ⟨thread, -, hrun⟩ := mem_extensions.mp hext
  have hlt := Machine.isRunning_lt hrun
  rw [Diagram.length_cursors_replay] at hlt
  exact List.ne_nil_of_length_pos (Nat.lt_of_le_of_lt thread.zero_le hlt)

/-- When nothing waits any more, the runs that have been visited are all runs. -/
theorem mem_runs_iff (hd : task.diagram.threads ≠ [])
    (hl : ∀ limit, task.limits.maxSteps = some limit → 1 ≤ limit) {done : List (List Nat)}
    (h : task.Agenda done []) (order : List Nat) :
    order ∈ task.runs ↔ order ∈ done.flatMap task.extensions ∧ task.ends order = true := by
  rw [mem_visited]
  constructor
  · rintro ⟨hcomplete, hlimit⟩
    -- before its last step a run is live and below the limit, so it has been opened
    obtain ⟨before, thread, rfl, hlive, hrun⟩ := hcomplete.eq_snoc hd
    have hopen : task.Open before := by
      refine ⟨hlive, .inr ?_⟩
      unfold Limits.cuts
      cases hmax : task.limits.maxSteps with
      | none => rfl
      | some limit =>
          have hle := hlimit limit hmax
          rw [List.length_append, List.length_singleton] at hle
          simpa using hle
    exact ⟨⟨before, (h.mem_done_iff hd).mpr hopen, mem_extensions.mpr ⟨thread, rfl, hrun⟩⟩,
      hcomplete.ended⟩
  · rintro ⟨⟨before, hmem, hext⟩, hends⟩
    have hopen := (h.mem_done_iff hd).mp hmem
    refine ⟨complete_of_mem_extensions hopen hext hends, ?_⟩
    intro limit hmax
    -- an extension of an open order is longer by one, so it is within the limit
    have hlt := hopen.length_lt hmax
    have hlen := length_of_mem_extensions hext
    have hpos := hl limit hmax
    omega

/-- When nothing waits any more, the visited orders that were given up are those that
are as long as the limit. -/
theorem mem_givenUp_iff (hd : task.diagram.threads ≠ [])
    (hl : ∀ limit, task.limits.maxSteps = some limit → 1 ≤ limit) {done : List (List Nat)}
    (h : task.Agenda done []) (order : List Nat) :
    order ∈ task.givenUp ↔ order ∈ done.flatMap task.extensions ∧
      (!task.ends order && task.limits.cuts order.length) = true := by
  rw [mem_visited, Bool.and_eq_true, Bool.not_eq_true']
  constructor
  · rintro ⟨hlive, hmax⟩
    have hpos := hl _ hmax
    -- the empty schedule is never given up, since the limit is at least one
    obtain ⟨hs, hgoes⟩ := hlive
    cases hs with
    | nil => exact absurd hpos (by simp)
    | @snoc before thread hbefore hrun =>
        have hopen : task.Open before := by
          refine ⟨(hbefore.snoc hrun).live_of_snoc, .inr ?_⟩
          simp [Limits.cuts, hmax]
        exact ⟨⟨before, (h.mem_done_iff hd).mpr hopen, mem_extensions.mpr ⟨thread, rfl, hrun⟩⟩,
          hgoes, by simp [Limits.cuts, hmax]⟩
  · rintro ⟨⟨before, hmem, hext⟩, hgoes, hcut⟩
    have hopen := (h.mem_done_iff hd).mp hmem
    exact ⟨⟨schedule_of_mem_extensions hopen.live.schedule hext, hgoes⟩,
      (hopen.cuts_iff hl hext).mp hcut⟩

/-- Below the greatest length of a visited run, all runs have been visited. -/
theorem mem_runsUpTo_iff (hd : task.diagram.threads ≠ []) {done waiting : List (List Nat)}
    (h : task.Agenda done waiting) {k : Nat} (hk : k < (task.findings done).maxSteps)
    (order : List Nat) :
    order ∈ task.runsUpTo k ↔ order ∈ done.flatMap task.extensions ∧
      (task.ends order && decide (order.length ≤ k)) = true := by
  rw [mem_visited, Bool.and_eq_true, decide_eq_true_eq]
  constructor
  · rintro ⟨hcomplete, hlen⟩
    obtain ⟨before, thread, rfl, hlive, hrun⟩ := hcomplete.eq_snoc hd
    rw [List.length_append, List.length_singleton] at hlen
    -- the longest run so far extends a done order, and `before` is shorter than that
    have hne : (task.tally (done.flatMap task.extensions)).maxSteps ≠ 0 :=
      Nat.ne_of_gt (Nat.lt_of_le_of_lt k.zero_le hk)
    obtain ⟨longest, hlongest, -, hmax⟩ := exists_of_maxSteps_tally hne
    obtain ⟨parent, hparent, hext⟩ := mem_visited.mp hlongest
    have hlt : before.length < parent.length := by
      have hgrow := length_of_mem_extensions hext
      have hk' : k < longest.length := hmax ▸ hk
      omega
    have hopen : task.Open before := by
      have hparentOpen := h.isOpen hd parent (List.mem_append_left _ hparent)
      refine ⟨hlive, .inr (cuts_mono (Nat.le_of_lt hlt) (hparentOpen.uncut.resolve_left ?_))⟩
      rintro rfl
      exact absurd hlt (by simp)
    exact ⟨⟨before, h.mem_done_of_length_lt hopen hparent hlt,
      mem_extensions.mpr ⟨thread, rfl, hrun⟩⟩, hcomplete.ended, by simpa using hlen⟩
  · rintro ⟨hvisited, hends, hlen⟩
    exact ⟨h.complete_of_mem_visited hd (mem_visited.mpr hvisited) hends, hlen⟩

/-! ## Every run exactly once -/

theorem ne_nil_of_mem_visited {done : List (List Nat)} :
    ∀ order ∈ done.flatMap task.extensions, order ≠ [] := by
  intro order hmem
  obtain ⟨_, _, hext⟩ := mem_visited.mp hmem
  exact ne_nil_of_mem_extensions hext

/-- A report that counts certain runs, and certain schedules that were given up, each exactly
once and nothing else. -/
structure Counts (task : Task) (runs givenUp : Set (List Nat)) (report : Report Rate) : Prop where
  finite_runs : runs.Finite
  finite_givenUp : givenUp.Finite
  total : report.total = runs.ncard
  completed : report.completed = {order ∈ runs | task.clean order = true}.ncard
  truncated : report.truncated = givenUp.ncard
  rates : ∀ k, report.rates.get? k =
    if 1 ≤ k ∧ k ≤ report.maxSteps then
      some ⟨{order ∈ runs | order.length ≤ k ∧ task.meets order = true}.ncard,
        {order ∈ runs | order.length ≤ k}.ncard⟩
    else none
  length_le : ∀ order ∈ runs, order.length ≤ report.maxSteps
  maxSteps_attained : report.maxSteps ≠ 0 → ∃ order ∈ runs, order.length = report.maxSteps

/-- Wherever it stands, an agenda has found out what it has visited. -/
theorem Agenda.counts {done waiting : List (List Nat)} (h : task.Agenda done waiting)
    {runs givenUp : Set (List Nat)}
    (hruns : ∀ order, order ∈ runs ↔
      order ∈ done.flatMap task.extensions ∧ task.ends order = true)
    (hgivenUp : ∀ order, order ∈ givenUp ↔ order ∈ done.flatMap task.extensions ∧
      (!task.ends order && task.limits.cuts order.length) = true) (interrupted : Bool) :
    task.Counts runs givenUp ((task.findings done).report interrupted) := by
  have hnodup := h.nodup_extensions
  have sub {p : List Nat → Prop} {q : List Nat → Bool}
      (hp : ∀ order, p order ↔ q order = true) (order : List Nat) :
      order ∈ {order ∈ runs | p order} ↔ order ∈ done.flatMap task.extensions ∧
        (task.ends order && q order) = true := by
    show order ∈ runs ∧ p order ↔ _
    rw [hruns, hp, Bool.and_eq_true, and_assoc]
  constructor
  case finite_runs => exact (ncard_eq_countP hnodup hruns).1
  case finite_givenUp => exact (ncard_eq_countP hnodup hgivenUp).1
  case total => exact (total_tally _ _).trans (ncard_eq_countP hnodup hruns).2
  case completed =>
    exact (completed_tally _ _).trans (ncard_eq_countP hnodup (sub fun _ => Iff.rfl)).2
  case truncated => exact (truncated_tally _ _).trans (ncard_eq_countP hnodup hgivenUp).2
  case rates =>
    intro k
    have hmatched := sub (p := fun order => order.length ≤ k ∧ task.meets order = true)
      (q := fun order => decide (order.length ≤ k) && task.meets order) (by simp)
    have hcounted := sub (p := fun order => order.length ≤ k)
      (q := fun order => decide (order.length ≤ k)) (by simp)
    rw [← (ncard_eq_countP hnodup hmatched).2, ← (ncard_eq_countP hnodup hcounted).2]
    show (task.findings done).rates.get? k = _
    rw [Tally.get?_rates, findings, rateUpTo_tally ne_nil_of_mem_visited]
    simp only [Bool.and_assoc]
    rfl
  case length_le =>
    intro order hmem
    obtain ⟨hvisited, hends⟩ := (hruns order).mp hmem
    exact length_le_maxSteps_tally hvisited hends
  case maxSteps_attained =>
    intro hne
    obtain ⟨order, hvisited, hends, hlen⟩ := exists_of_maxSteps_tally hne
    exact ⟨order, (hruns order).mpr ⟨hvisited, hends⟩, hlen⟩

/-- The report of an agenda that has come to its end is exact. -/
theorem exact_of_agenda (hd : task.diagram.threads ≠ [])
    (hl : ∀ limit, task.limits.maxSteps = some limit → 1 ≤ limit) {done : List (List Nat)}
    (h : task.Agenda done []) :
    task.Exact ((task.findings done).report (decide (0 < (task.findings done).truncated))) := by
  have hcounts := h.counts (mem_runs_iff hd hl h) (mem_givenUp_iff hd hl h)
    (decide (0 < (task.findings done).truncated))
  exact {
    finite_runs := hcounts.finite_runs
    finite_givenUp := hcounts.finite_givenUp
    total := hcounts.total
    completed := hcounts.completed
    truncated := hcounts.truncated
    rates := hcounts.rates
    length_le := hcounts.length_le
    maxSteps_attained := hcounts.maxSteps_attained
    interrupted := decide_eq_true_iff }

/-- Nobody ends a search without a cap on states if its observer lets it go on. -/
theorem halted_of_undisturbed (hu : task.Undisturbed) (hstates : task.limits.maxStates = none)
    {s : Search} (hs : Search.Reachable task s) : s.halted = false := by
  cases hs with
  | start => rfl
  | @next before _ hs hnext =>
      obtain ⟨done, waiting, hf⟩ := hs.follows.1
      rcases Search.next?_cases hf hnext with ⟨_, _, _, hstop⟩ | ⟨_, _, _, _, _, hrep⟩
      · rw [hu.stops before hs, Limits.stopAfter, hstates] at hstop
        exact absurd hstop (by simp)
      · rcases hrep with ⟨_, _, hgo⟩ | ⟨_, hmore, hgo⟩
        · exact hgo
        · rw [hgo, hu.ends s (hs.next hnext) (by simp [hmore])]

/-- A search that nobody has ended early has come to the end of its agenda. -/
theorem agenda_of_search (hu : task.Undisturbed) (hstates : task.limits.maxStates = none)
    {fuel : Nat} {last : Search} (h : task.search fuel = some last) :
    ∃ done, last.Follows task done [] ∧
      last.report = (task.findings done).report (decide (0 < (task.findings done).truncated)) := by
  obtain ⟨hreach, hended⟩ := Search.reachable_of_run .start h
  obtain ⟨done, waiting, hf⟩ := hreach.follows.1
  have hgo := halted_of_undisturbed hu hstates hreach
  rcases (Search.next?_eq_none_iff hf).mp hended with hhalted | rfl
  · rw [hgo] at hhalted
    exact Bool.noConfusion hhalted
  · refine ⟨done, hf, ?_⟩
    rw [Search.report, hgo, Bool.false_or, hf.tally]

theorem agenda_of_explore (hq : task.observer.Quiet) (hstates : task.limits.maxStates = none)
    {fuel : Nat} {report : Report Rate} (h : task.explore fuel = some report) :
    ∃ done, task.Agenda done [] ∧
      report = (task.findings done).report (decide (0 < (task.findings done).truncated)) := by
  obtain ⟨last, hlast, rfl⟩ := Option.map_eq_some_iff.mp h
  obtain ⟨done, hf, hreport⟩ := agenda_of_search hq.undisturbed hstates hlast
  exact ⟨done, hf.agenda, hreport⟩

/-- What a search returns that nobody has ended early. -/
theorem exact_of_explore (hd : task.diagram.threads ≠ []) (hq : task.observer.Quiet)
    (hstates : task.limits.maxStates = none)
    (hl : ∀ limit, task.limits.maxSteps = some limit → 1 ≤ limit) {fuel : Nat}
    {report : Report Rate} (h : task.explore fuel = some report) : task.Exact report := by
  obtain ⟨done, hagenda, rfl⟩ := agenda_of_explore hq hstates h
  exact exact_of_agenda hd hl hagenda

/-- A search ends that never has to expand more than so many orders. -/
theorem exists_explore_of_length_le {bound : Nat}
    (hbound : ∀ done waiting, task.Agenda done waiting → done.length ≤ bound) :
    ∃ fuel report, task.explore fuel = some report := by
  have hexpanded (s : Search) (hs : Search.Reachable task s) : s.expanded ≤ bound := by
    obtain ⟨done, waiting, hf⟩ := hs.follows.1
    rw [hf.expanded]
    exact hbound done waiting hf.agenda
  obtain ⟨last, hlast⟩ := Search.exists_run_of_expanded_le hexpanded .start
  exact ⟨_, last.report, by rw [explore, search, hlast]; rfl⟩

/-- A search with a length limit ends. -/
theorem exists_explore_of_maxSteps (hd : task.diagram.threads ≠ []) {limit : Nat}
    (hl : task.limits.maxSteps = some limit) : ∃ fuel report, task.explore fuel = some report :=
  exists_explore_of_length_le fun _ _ h => h.length_done_le hd fun _ ho => ho.length_lt hl

/-- **Exact enumeration.** A search that neither its observer nor a cap on states ends
reports every run within its length limit exactly once; with a length limit it always
comes to its end. -/
theorem explore_enumerates (task : Task) (hd : task.diagram.threads ≠ [])
    (hq : task.observer.Quiet) (hstates : task.limits.maxStates = none)
    (hl : ∀ limit, task.limits.maxSteps = some limit → 1 ≤ limit) :
    (task.limits.maxSteps.isSome = true → ∃ fuel report, task.explore fuel = some report) ∧
      ∀ fuel report, task.explore fuel = some report → task.Exact report := by
  refine ⟨fun hsome => ?_, fun fuel report h => exact_of_explore hd hq hstates hl h⟩
  obtain ⟨limit, hmax⟩ := Option.isSome_iff_exists.mp hsome
  exact exists_explore_of_maxSteps hd hmax

/-- Two threads that ask for a line when there is only one. Who comes second fails, and
the second thread has one block more, so the runs have three or four steps. -/
def oneReply (limits : Limits) : Task where
  diagram := {
    declared := [⟨"x", .int⟩]
    blocks := ⟨[(1, .input 1 2 "x"), (2, .stop 2 none), (3, .input 3 4 "x"),
      (4, .stop 4 (some 5)), (5, .stop 5 none)], by decide⟩
    threads := [1, 3]
    names_nodup := by decide
    id_of_mem := by decide }
  inputs := ["1"]
  expected := []
  limits := limits
  observer := .silent

theorem explore_enumerates_oneReply :
    ∃ fuel report, (oneReply ⟨none, some 4, 1⟩).explore fuel = some report ∧
      (oneReply ⟨none, some 4, 1⟩).Exact report := by
  have henum := explore_enumerates (oneReply ⟨none, some 4, 1⟩) (by decide)
    Observer.quiet_silent rfl (fun limit hmax => by cases hmax; decide)
  obtain ⟨fuel, report, h⟩ := henum.1 rfl
  exact ⟨fuel, report, h, henum.2 fuel report h⟩

/-! ## Rates that are final -/

/-- The reports that come out of the search for a task: the one it returns, and those it
gives on its way, whether it ever ends or not. -/
inductive Gives (task : Task) : Report Rate → Prop where
  | inTheEnd {fuel : Nat} {report : Report Rate} :
      task.explore fuel = some report → Gives task report
  | onTheWay {s : Search} {report : Report Rate} :
      Search.Reachable task s → report ∈ s.reports → Gives task report

/-- Every report is what some agenda has found out. -/
theorem Gives.findings {report : Report Rate} (h : task.Gives report) :
    ∃ done waiting interrupted, task.Agenda done waiting ∧
      report = (task.findings done).report interrupted := by
  cases h with
  | inTheEnd h =>
      obtain ⟨last, hlast, rfl⟩ := Option.map_eq_some_iff.mp h
      obtain ⟨done, waiting, hf⟩ := (Search.reachable_of_run .start hlast).1.follows.1
      exact ⟨done, waiting, _, hf.agenda, by unfold Search.report; rw [hf.tally]⟩
  | onTheWay hs hmem =>
      obtain ⟨done, waiting, hagenda, heq⟩ := hs.follows.2 report hmem
      exact ⟨done, waiting, false, hagenda, heq⟩

/-- The search for the same runs without limits and without interference. -/
def unlimited (task : Task) : Task :=
  { task with limits := .standard, observer := .silent }

/-- The rate over all runs of at most so many steps. -/
noncomputable def rateOfAll (task : Task) (k : Nat) : Rate :=
  ⟨{order ∈ task.runsUpTo k | task.meets order = true}.ncard, (task.runsUpTo k).ncard⟩

/-- Below its greatest number of steps a report shows the rates over all runs. -/
theorem Gives.get?_rates (hd : task.diagram.threads ≠ []) {report : Report Rate}
    (h : task.Gives report) {k : Nat} (hk : k < report.maxSteps) :
    (task.runsUpTo k).Finite ∧
      report.rates.get? k = if 1 ≤ k then some (task.rateOfAll k) else none := by
  obtain ⟨done, waiting, interrupted, hagenda, rfl⟩ := h.findings
  have hnodup := hagenda.nodup_extensions
  have hcounted := mem_runsUpTo_iff hd hagenda hk
  have hmatched : ∀ order, order ∈ {order ∈ task.runsUpTo k | task.meets order = true} ↔
      order ∈ done.flatMap task.extensions ∧
        (task.ends order && decide (order.length ≤ k) && task.meets order) = true := by
    intro order
    show order ∈ task.runsUpTo k ∧ _ ↔ _
    rw [hcounted, Bool.and_eq_true (_ && _), and_assoc]
  refine ⟨(ncard_eq_countP hnodup hcounted).1, ?_⟩
  show (task.findings done).rates.get? k = _
  have hle : k ≤ (task.findings done).maxSteps := Nat.le_of_lt hk
  rw [Tally.get?_rates, rateOfAll, ← (ncard_eq_countP hnodup hmatched).2,
    ← (ncard_eq_countP hnodup hcounted).2]
  simp only [hle, and_true]
  rw [Task.findings, rateUpTo_tally ne_nil_of_mem_visited]

/-- The run behind the greatest number of steps of a report. -/
theorem Gives.exists_run (hd : task.diagram.threads ≠ []) {report : Report Rate}
    (h : task.Gives report) (hne : report.maxSteps ≠ 0) :
    ∃ order, task.diagram.Complete task.inputs order ∧ order.length = report.maxSteps := by
  obtain ⟨done, waiting, interrupted, hagenda, rfl⟩ := h.findings
  obtain ⟨order, hvisited, hends, hlen⟩ := exists_of_maxSteps_tally hne
  exact ⟨order, hagenda.complete_of_mem_visited hd hvisited hends, hlen⟩

/-- **Rates below the maximum are final.** Whatever its limits and whatever its observer
does, every report that comes out of a search, on the way or in the end, shows for each
number of steps below its greatest the rate over all runs of at most so many steps,
which is also what an unlimited search shows. -/
theorem rates_final (task : Task) (hd : task.diagram.threads ≠ []) (report : Report Rate)
    (h : task.Gives report) (k : Nat) (hk : k < report.maxSteps) :
    (task.runsUpTo k).Finite ∧
      report.rates.get? k = (if 1 ≤ k then some (task.rateOfAll k) else none) ∧
      ∀ fuel full, task.unlimited.explore fuel = some full →
        full.rates.get? k = report.rates.get? k := by
  obtain ⟨hfinite, hrate⟩ := h.get?_rates hd hk
  refine ⟨hfinite, hrate, ?_⟩
  intro fuel full hfull
  have hd' : task.unlimited.diagram.threads ≠ [] := hd
  have hexact := exact_of_explore hd' Observer.quiet_silent rfl
    (fun limit hmax => absurd hmax (by simp [unlimited, Limits.standard])) hfull
  have hpos : 0 < report.maxSteps := Nat.lt_of_le_of_lt k.zero_le hk
  obtain ⟨order, hcomplete, hlen⟩ := h.exists_run hd (Nat.ne_of_gt hpos)
  have hle := hexact.length_le order
    ⟨hcomplete, fun limit hmax => absurd hmax (by simp [unlimited, Limits.standard])⟩
  have hk' : k < full.maxSteps := by omega
  rw [hrate]
  exact ((Gives.inTheEnd hfull).get?_rates hd' hk').2

/-- A cap on states ends this search while runs are left, but the rate of the runs of
three steps is final. -/
theorem rates_final_oneReply :
    ∃ report, (oneReply ⟨some 9, none, 1⟩).Gives report ∧ 3 < report.maxSteps ∧
      report.interrupted = true ∧
      report.rates.get? 3 = some ((oneReply ⟨some 9, none, 1⟩).rateOfAll 3) := by
  have hrun : ((oneReply ⟨some 9, none, 1⟩).explore 20).any
      (fun report => decide (3 < report.maxSteps) && report.interrupted) = true := by
    decide
  obtain ⟨report, hreport, htest⟩ := (Option.any_eq_true _ _).mp hrun
  obtain ⟨hmax, hinterrupted⟩ := Bool.and_eq_true_iff.mp htest
  have hmax := of_decide_eq_true hmax
  exact ⟨report, .inTheEnd hreport, hmax, hinterrupted,
    (rates_final (oneReply ⟨some 9, none, 1⟩) (by decide) report (.inTheEnd hreport) 3 hmax).2.1⟩

end Task

end Flowchart
