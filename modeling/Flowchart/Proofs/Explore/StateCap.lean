import Flowchart.Proofs.Explore.Enumeration

/-!
# A cap on states

A cap on states ends a search early, and what it has expanded by then is not an accident
of the queue: the orders are taken in shortlex order, so a search that may expand so many
states expands the first so many of all orders that there are to expand
(`explore_capped`). Its report counts what these orders lead to in one more step.

The orders that a run has expanded are kept beside it by `Search.expansions`. The tie to the
agenda is `Search.follows_expansions`: what a run expands is what its agenda does.
-/

namespace Flowchart

namespace Search

variable {task : Task} {s : Search} {done waiting : List (List Nat)}

/-! ## What a run expands -/

/-- The state that the next round expands, unless the search ends before that. -/
def expanding? (task : Task) (s : Search) : Option Pending :=
  if s.halted || (task.observer.stops s.expanded s.reports || task.limits.stopAfter s.expanded)
  then none else s.waiting.pop?.map (·.1)

/-- The orders that a run expands, one after the other. -/
def expansions (task : Task) : (fuel : Nat) → Search → List (List Nat)
  | 0, _ => []
  | fuel + 1, s =>
    match s.next? task with
    | none => []
    | some next => ((s.expanding? task).map (·.order)).toList ++ expansions task fuel next

/-- The round that expands a state takes it from the queue and visits its children. -/
theorem next?_of_expanding? {p : Pending} (h : s.expanding? task = some p) :
    ∃ rest, s.waiting.pop? = some (p, rest) ∧
      s.next? task = some (({ s with waiting := rest }.expand task p).announce task) := by
  unfold expanding? at h
  split at h
  · exact absurd h (by simp)
  next hgo =>
  rw [Bool.not_eq_true, Bool.or_eq_false_iff] at hgo
  obtain ⟨⟨p', rest⟩, hpop, rfl⟩ := Option.map_eq_some_iff.mp h
  refine ⟨rest, hpop, ?_⟩
  unfold next?
  rw [if_neg (by simp [hgo.1]), hpop]
  dsimp only
  rw [if_neg (by simp [hgo.2])]

/-- A round that expands no state ends the search. -/
theorem halted_of_expanding?_eq_none {next : Search} (h : s.expanding? task = none)
    (hnext : s.next? task = some next) :
    next.halted = true ∧ next.expanded = s.expanded := by
  unfold next? at hnext
  split at hnext
  · exact absurd hnext (by simp)
  next hhalted =>
  split at hnext
  · exact absurd hnext (by simp)
  next p rest hpop =>
  dsimp only at hnext
  split at hnext
  · obtain rfl := Option.some.inj hnext
    exact ⟨rfl, rfl⟩
  next hgo =>
  unfold expanding? at h
  rw [if_neg (by simp [hhalted, hgo]), hpop] at h
  exact absurd h (by simp)

/-- A round does the first order that waits, if it expands a state, and no order
otherwise. -/
theorem Follows.round {next : Search} (hf : s.Follows task done waiting)
    (hnext : s.next? task = some next) :
    ∃ waiting',
      next.Follows task (done ++ ((s.expanding? task).map (·.order)).toList) waiting' := by
  cases hexpanding : s.expanding? task with
  | none =>
      obtain ⟨_, hexpanded⟩ := halted_of_expanding?_eq_none hexpanding hnext
      rcases next?_cases hf hnext with ⟨_, hf', _, _⟩ | ⟨order, rest, rfl, _, hf', _⟩
      · exact ⟨waiting, by simpa using hf'⟩
      · -- a round that expands counts it
        have hlen := hf'.expanded
        rw [hexpanded, hf.expanded, List.length_append, List.length_singleton] at hlen
        omega
  | some p =>
      obtain ⟨queue, hpop, hnext'⟩ := next?_of_expanding? hexpanding
      have hgo : s.halted = false := by
        cases hhalted : s.halted with
        | false => rfl
        | true => simp [next?, hhalted] at hnext
      have hqueue := hf.queue hgo
      rw [Queue.toList_of_pop? hpop] at hqueue
      rcases next?_cases hf hnext with ⟨heq, _, _, hstop⟩ | ⟨order, rest, rfl, _, hf', _⟩
      · unfold expanding? at hexpanding
        rw [if_pos (by simp [hstop])] at hexpanding
        exact absurd hexpanding (by simp)
      · obtain ⟨rfl, -⟩ := List.cons.inj hqueue
        exact ⟨_, hf'⟩

/-- **What a run expands is what its agenda does.** -/
theorem follows_expansions {fuel : Nat} {last : Search} (hf : s.Follows task done waiting)
    (h : Search.run task fuel s = some last) :
    ∃ waiting', last.Follows task (done ++ expansions task fuel s) waiting' := by
  induction fuel generalizing s done waiting with
  | zero => exact absurd h (by simp [Search.run])
  | succ fuel ih =>
      cases hnext : s.next? task with
      | none =>
          rw [run_of_ended hnext] at h
          obtain rfl := Option.some.inj h
          refine ⟨waiting, ?_⟩
          rw [expansions, hnext]
          simpa using hf
      | some next =>
          rw [run_of_next hnext] at h
          obtain ⟨waiting', hf'⟩ := hf.round hnext
          obtain ⟨waiting'', hlast⟩ := ih hf' h
          refine ⟨waiting'', ?_⟩
          rw [expansions, hnext]
          rwa [List.append_assoc] at hlast

/-- No search expands more states than its cap allows. -/
theorem Reachable.expanded_le {cap : Nat} (hstates : task.limits.maxStates = some cap)
    (hs : Reachable task s) : s.expanded ≤ cap := by
  induction hs with
  | start => exact Nat.zero_le cap
  | @next s next hs hnext ih =>
      obtain ⟨done, waiting, hf⟩ := hs.follows.1
      rcases next?_cases hf hnext with ⟨heq, _, _, _⟩ | ⟨order, rest, rfl, hgo, hf', _⟩
      · rw [heq]
        exact ih
      · have hlt : s.expanded < cap := by
          rw [Bool.or_eq_false_iff, Limits.stopAfter, hstates, Option.any_some,
            decide_eq_false_iff_not] at hgo
          omega
        rw [hf'.expanded, List.length_append, List.length_singleton, ← hf.expanded]
        exact hlt

/-- When nobody but the cap ends a search, it has expanded as many states as it may, and
something is left. -/
theorem Reachable.full_of_halted {cap : Nat} (hq : task.observer.Quiet)
    (hstates : task.limits.maxStates = some cap) (hs : Reachable task s)
    (hhalted : s.halted = true) (hf : s.Follows task done waiting) :
    s.expanded = cap ∧ waiting ≠ [] := by
  rcases hs.halted_cases hhalted hf with ⟨hne, hstop⟩ | ⟨-, hends⟩
  · rw [hq.stops, Bool.false_or, Limits.stopAfter, hstates, Option.any_some,
      decide_eq_true_eq] at hstop
    exact ⟨Nat.le_antisymm (hs.expanded_le hstates) hstop, hne⟩
  · -- a quiet observer ends nothing at a report
    rw [hq.ends] at hends
    exact Bool.noConfusion hends

end Search

namespace Task

variable {task : Task} {done waiting : List (List Nat)} {order : List Nat}

/-- The orders that the search for a task expands within so many rounds. -/
def expansions (fuel : Nat) (task : Task) : List (List Nat) :=
  Search.expansions task fuel (Search.start task)

/-! ## The first orders -/

/-- The live schedules below the length limit. -/
def expandable (task : Task) : Set (List Nat) :=
  {order | task.diagram.Live task.inputs order ∧
    ∀ limit, task.limits.maxSteps = some limit → order.length < limit}

/-- The first so many of them, shorter ones first and those of one length in lexicographic
order. An order is one of the first `n` if fewer than `n` come before it. -/
def firstExpandable (task : Task) (n : Nat) : Set (List Nat) :=
  {order ∈ task.expandable | {earlier ∈ task.expandable | Agenda.Before earlier order}.encard < n}

/-- The orders that a search is asked to expand under a limit of at least one. -/
theorem mem_expandable_iff (hl : ∀ limit, task.limits.maxSteps = some limit → 1 ≤ limit) :
    order ∈ task.expandable ↔ task.Open order := by
  constructor
  · rintro ⟨hlive, hlimit⟩
    refine ⟨hlive, .inr ?_⟩
    unfold Limits.cuts
    cases hmax : task.limits.maxSteps with
    | none => rfl
    | some limit => simpa using hlimit limit hmax
  · intro ho
    refine ⟨ho.live, fun limit hmax => ?_⟩
    have hlt := ho.length_lt hmax
    have hpos := hl limit hmax
    omega

theorem encard_of_nodup {orders : List (List Nat)} (h : orders.Nodup) :
    {order | order ∈ orders}.encard = orders.length := by
  rw [← List.coe_toFinset, Set.encard_coe_eq_coe_finsetCard, List.toFinset_card_of_nodup h]

namespace Agenda

/-- What is done comes before any open order that is not done. -/
theorem before_of_not_mem (h : task.Agenda done waiting) (ho : task.Open order)
    (hnot : order ∉ done) : ∀ other ∈ done, Before other order := by
  intro other hother
  rcases Std.Trichotomous.rel_or_eq_or_rel_swap (r := Before) (a := other) (b := order) with
    hlt | heq | hgt
  · exact hlt
  · exact absurd (heq ▸ hother) hnot
  · -- an order before a done one is not longer than anything that waits
    refine absurd ?_ hnot
    have hle : order.length ≤ other.length := by
      rcases List.shortlex_def.mp hgt with hlen | ⟨hlen, -⟩
      · exact Nat.le_of_lt hlen
      · exact Nat.le_of_eq hlen
    have hmem := h.mem_of_length_le ho fun later hlater =>
      Nat.le_trans hle (h.length_le_of_done hother later hlater)
    rcases List.mem_append.mp hmem with hdone | hwaits
    · exact hdone
    · have hlt := (List.pairwise_append.mp h.pairwise).2.2 other hother order hwaits
      exact absurd hlt (Std.Asymm.asymm _ _ hgt)

/-- **The done orders are the first ones.** -/
theorem mem_done_iff_first (hd : task.diagram.threads ≠ [])
    (hl : ∀ limit, task.limits.maxSteps = some limit → 1 ≤ limit) (h : task.Agenda done waiting)
    {n : Nat} (hle : done.length ≤ n) (hfull : waiting = [] ∨ done.length = n) :
    order ∈ done ↔ order ∈ task.firstExpandable n := by
  have hnodup := (List.nodup_append.mp h.nodup).1
  have hopen : ∀ other ∈ done, other ∈ task.expandable := fun other hother =>
    (mem_expandable_iff hl).mpr (h.isOpen hd other (List.mem_append_left _ hother))
  constructor
  · intro hmem
    refine ⟨hopen order hmem, ?_⟩
    -- what comes before a done order is done, and the order itself is one more
    have hsubset : {earlier ∈ task.expandable | Before earlier order} ⊆
        {earlier | earlier ∈ done.erase order} := by
      rintro earlier ⟨hearlier, hbefore⟩
      have hne : earlier ≠ order := by
        rintro rfl
        exact Std.Irrefl.irrefl _ hbefore
      refine (List.mem_erase_of_ne hne).mpr ?_
      by_contra hnot
      have hafter := h.before_of_not_mem ((mem_expandable_iff hl).mp hearlier) hnot order hmem
      exact Std.Asymm.asymm _ _ hbefore hafter
    have hlt : (done.erase order).length < n := by
      have hpos := List.length_pos_of_mem hmem
      rw [List.length_erase_of_mem hmem]
      omega
    refine lt_of_le_of_lt (Set.encard_le_encard hsubset) ?_
    rw [encard_of_nodup (hnodup.erase order)]
    exact_mod_cast hlt
  · rintro ⟨hexpandable, hlt⟩
    by_contra hnot
    have ho := (mem_expandable_iff hl).mp hexpandable
    rcases hfull with rfl | hfull
    · exact hnot ((h.mem_done_iff hd).mpr ho)
    · -- otherwise all done orders come before it, and these are too many
      have hsubset : {other | other ∈ done} ⊆
          {earlier ∈ task.expandable | Before earlier order} := fun other hother =>
        ⟨hopen other hother, h.before_of_not_mem ho hnot other hother⟩
      have hcard := Set.encard_le_encard hsubset
      rw [encard_of_nodup hnodup, hfull] at hcard
      exact absurd hlt (not_lt_of_ge hcard)

/-- Something is left when there are more orders to expand than have been done. -/
theorem lt_encard_iff (hd : task.diagram.threads ≠ [])
    (hl : ∀ limit, task.limits.maxSteps = some limit → 1 ≤ limit)
    (h : task.Agenda done waiting) :
    (done.length : ℕ∞) < task.expandable.encard ↔ waiting ≠ [] := by
  have hnodup := h.nodup
  constructor
  · rintro hlt rfl
    have hall : task.expandable = {order | order ∈ done} := by
      ext order
      rw [mem_expandable_iff hl]
      exact (h.mem_done_iff hd).symm
    rw [hall, encard_of_nodup (List.nodup_append.mp hnodup).1] at hlt
    exact lt_irrefl _ hlt
  · intro hne
    have hsubset : {order | order ∈ done ++ waiting} ⊆ task.expandable := fun order hmem =>
      (mem_expandable_iff hl).mpr (h.isOpen hd order hmem)
    have hlt : done.length < (done ++ waiting).length := by
      have hpos := List.length_pos_iff.mpr hne
      rw [List.length_append]
      omega
    refine lt_of_lt_of_le ?_ (Set.encard_le_encard hsubset)
    rw [encard_of_nodup hnodup]
    exact_mod_cast hlt

end Agenda

/-! ## The report under a cap -/

/-- The runs that end one step after some orders. -/
def runsAfter (task : Task) (expanded : Set (List Nat)) : Set (List Nat) :=
  {order | task.diagram.Complete task.inputs order ∧
    ∃ before ∈ expanded, ∃ thread, order = before ++ [thread]}

/-- The schedules that are given up one step after some orders: they are live and as long as
the limit. -/
def givenUpAfter (task : Task) (expanded : Set (List Nat)) : Set (List Nat) :=
  {order | task.diagram.Live task.inputs order ∧ task.limits.maxSteps = some order.length ∧
    ∃ before ∈ expanded, ∃ thread, order = before ++ [thread]}

theorem mem_runsAfter_iff (hd : task.diagram.threads ≠ []) (h : task.Agenda done waiting)
    (order : List Nat) : order ∈ task.runsAfter {before | before ∈ done} ↔
      order ∈ done.flatMap task.extensions ∧ task.ends order = true := by
  constructor
  · rintro ⟨hcomplete, before, hbefore, thread, rfl⟩
    exact ⟨mem_visited.mpr ⟨before, hbefore,
      mem_extensions.mpr ⟨thread, rfl, hcomplete.schedule.of_snoc.2⟩⟩, hcomplete.ended⟩
  · rintro ⟨hvisited, hends⟩
    obtain ⟨before, hbefore, hext⟩ := mem_visited.mp hvisited
    obtain ⟨thread, heq, -⟩ := mem_extensions.mp hext
    exact ⟨h.complete_of_mem_visited hd hvisited hends, before, hbefore, thread, heq⟩

theorem mem_givenUpAfter_iff (hd : task.diagram.threads ≠ [])
    (hl : ∀ limit, task.limits.maxSteps = some limit → 1 ≤ limit) (h : task.Agenda done waiting)
    (order : List Nat) : order ∈ task.givenUpAfter {before | before ∈ done} ↔
      order ∈ done.flatMap task.extensions ∧
        (!task.ends order && task.limits.cuts order.length) = true := by
  rw [Bool.and_eq_true, Bool.not_eq_true']
  constructor
  · rintro ⟨hlive, hmax, before, hbefore, thread, rfl⟩
    have hext : before ++ [thread] ∈ task.extensions before :=
      mem_extensions.mpr ⟨thread, rfl, hlive.schedule.of_snoc.2⟩
    have hopen := h.isOpen hd before (List.mem_append_left _ hbefore)
    exact ⟨mem_visited.mpr ⟨before, hbefore, hext⟩, hlive.goesOn,
      (hopen.cuts_iff hl hext).mpr hmax⟩
  · rintro ⟨hvisited, hgoes, hcut⟩
    obtain ⟨before, hbefore, hext⟩ := mem_visited.mp hvisited
    have hopen := h.isOpen hd before (List.mem_append_left _ hbefore)
    obtain ⟨thread, heq, -⟩ := mem_extensions.mp hext
    exact ⟨⟨schedule_of_mem_extensions hopen.live.schedule hext, hgoes⟩,
      (hopen.cuts_iff hl hext).mp hcut, before, hbefore, thread, heq⟩

/-- Where a search with a cap on states stands when it returns: either its agenda is at its
end, or the cap has ended it. -/
theorem agenda_of_capped {cap : Nat} (hq : task.observer.Quiet)
    (hstates : task.limits.maxStates = some cap) {fuel : Nat} {last : Search}
    (h : task.search fuel = some last) :
    ∃ waiting, last.Follows task (task.expansions fuel) waiting ∧
      (task.expansions fuel).length ≤ cap ∧
      (waiting = [] ∨ (task.expansions fuel).length = cap) ∧
      (last.halted = true ↔ waiting ≠ []) := by
  obtain ⟨hreach, hended⟩ := Search.reachable_of_run .start h
  obtain ⟨waiting, hf⟩ : ∃ waiting, last.Follows task (task.expansions fuel) waiting :=
    Search.follows_expansions (Search.follows_start task) h
  have hle := hreach.expanded_le hstates
  rw [hf.expanded] at hle
  have hwaiting := (Search.next?_eq_none_iff hf).mp hended
  cases hhalted : last.halted with
  | false =>
      have hnil : waiting = [] := hwaiting.resolve_left (by simp [hhalted])
      exact ⟨waiting, hf, hle, .inl hnil, by simp [hnil]⟩
  | true =>
      obtain ⟨hfull, hne⟩ := hreach.full_of_halted hq hstates hhalted hf
      rw [hf.expanded] at hfull
      exact ⟨waiting, hf, hle, .inr hfull, by simp [hne]⟩

/-- **A cap on states takes a shortlex prefix.** A search that may expand so many states comes
to its end. It expands the first so many of the live schedules below the length limit, in
shortlex order and each once, or all if there are fewer. Its report counts the runs that are
one step longer, and it says that something was left out if a schedule was given up or
there are more schedules to expand. -/
theorem explore_capped (task : Task) (hd : task.diagram.threads ≠ []) (hq : task.observer.Quiet)
    (cap : Nat) (hstates : task.limits.maxStates = some cap)
    (hl : ∀ limit, task.limits.maxSteps = some limit → 1 ≤ limit) :
    (∃ fuel report, task.explore fuel = some report) ∧
      ∀ fuel report, task.explore fuel = some report →
        (task.expansions fuel).Pairwise Agenda.Before ∧
        (∀ order, order ∈ task.expansions fuel ↔ order ∈ task.firstExpandable cap) ∧
        task.Counts (task.runsAfter (task.firstExpandable cap))
          (task.givenUpAfter (task.firstExpandable cap)) report ∧
        (report.interrupted = true ↔
          0 < report.truncated ∨ (cap : ℕ∞) < task.expandable.encard) := by
  constructor
  · obtain ⟨last, hlast⟩ := Search.exists_run_of_expanded_le
      (fun s (hs : Search.Reachable task s) => hs.expanded_le hstates) .start
    exact ⟨_, last.report, by rw [explore, search, hlast]; rfl⟩
  · intro fuel report h
    obtain ⟨last, hlast, rfl⟩ := Option.map_eq_some_iff.mp h
    obtain ⟨waiting, hf, hle, hfull, hhalted⟩ := agenda_of_capped hq hstates hlast
    generalize task.expansions fuel = done at hf hle hfull
    have hfirst (order : List Nat) : order ∈ done ↔ order ∈ task.firstExpandable cap :=
      hf.agenda.mem_done_iff_first hd hl hle hfull
    have hset : task.firstExpandable cap = {order | order ∈ done} :=
      Set.ext fun order => (hfirst order).symm
    refine ⟨(List.pairwise_append.mp hf.agenda.pairwise).1, hfirst, ?_, ?_⟩
    · rw [Search.report, hf.tally, hset]
      exact hf.agenda.counts (mem_runsAfter_iff hd hf.agenda)
        (mem_givenUpAfter_iff hd hl hf.agenda) _
    · show (last.halted || decide (0 < last.tally.truncated)) = true ↔
        0 < last.tally.truncated ∨ _
      rw [Bool.or_eq_true, decide_eq_true_eq, or_comm, hhalted, ← hf.agenda.lt_encard_iff hd hl]
      refine or_congr_right ⟨fun hlt => ?_, fun hlt => ?_⟩
      · rcases hfull with rfl | hfull
        · exact absurd rfl ((hf.agenda.lt_encard_iff hd hl).mp hlt)
        · rwa [hfull] at hlt
      · exact lt_of_le_of_lt (by exact_mod_cast hle) hlt

/-- Three states are expanded before any run has ended. They are the first three, and more
are left. -/
theorem explore_capped_oneReply :
    ∃ report, (oneReply ⟨some 3, some 4, 1⟩).explore 20 = some report ∧
      (oneReply ⟨some 3, some 4, 1⟩).expansions 20 = [[], [0], [1]] ∧
      [1] ∈ (oneReply ⟨some 3, some 4, 1⟩).firstExpandable 3 ∧
      [0, 0] ∉ (oneReply ⟨some 3, some 4, 1⟩).firstExpandable 3 ∧
      ((oneReply ⟨some 3, some 4, 1⟩).runsAfter
        ((oneReply ⟨some 3, some 4, 1⟩).firstExpandable 3)).ncard = 0 ∧
      3 < (oneReply ⟨some 3, some 4, 1⟩).expandable.encard := by
  have hrun : ((oneReply ⟨some 3, some 4, 1⟩).explore 20).any (fun report =>
      decide (report.interrupted = true ∧ report.truncated = 0 ∧ report.total = 0)) = true := by
    decide
  have hexpansions : (oneReply ⟨some 3, some 4, 1⟩).expansions 20 = [[], [0], [1]] := by decide
  obtain ⟨report, hreport, htest⟩ := (Option.any_eq_true _ _).mp hrun
  obtain ⟨hinterrupted, htruncated, htotal⟩ := of_decide_eq_true htest
  obtain ⟨-, hfirst, hcounts, hleft⟩ := (explore_capped (oneReply ⟨some 3, some 4, 1⟩) (by decide)
    Observer.quiet_silent 3 rfl (fun limit hmax => by cases hmax; decide)).2 20 report hreport
  refine ⟨report, hreport, hexpansions, (hfirst [1]).mp ?_, fun hmem => ?_, ?_, ?_⟩
  · rw [hexpansions]
    decide
  · have hdone := (hfirst [0, 0]).mpr hmem
    rw [hexpansions] at hdone
    exact absurd hdone (by decide)
  · rw [← hcounts.total, htotal]
  · exact (hleft.mp hinterrupted).resolve_left (by rw [htruncated]; exact Nat.lt_irrefl 0)

end Task

end Flowchart
