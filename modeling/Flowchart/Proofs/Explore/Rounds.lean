import Flowchart.Proofs.Explore.Score

/-!
# A search follows its agenda

The search carries more than its agenda: the list of running threads beside each
order, the state that the order leads to, a tally kept up to date. None of it is
new. What waits is what `Pending.at` makes of the orders that wait, and the tally is
the score of what the done orders led to (`Follows`). Each round keeps it so, whatever
the observer does, and so it holds wherever a search can get to.
-/

namespace Flowchart

/-- The state that an order leads to, as it waits in a search. -/
def Pending.at (task : Task) (order : List Nat) : Pending :=
  ⟨order, task.diagram.runningAfter task.inputs order, task.diagram.replay task.inputs order⟩

namespace Pending

variable {task : Task}

theorem root_eq (task : Task) :
    Pending.root task.diagram task.inputs = Pending.at task [] := by
  have hall : task.diagram.runningAfter task.inputs [] = List.range task.diagram.threads.length :=
    List.filter_eq_self.mpr fun thread hmem =>
      Diagram.isRunning_start _ _ (List.mem_range.mp hmem)
  rw [Pending.at, hall]
  rfl

/-- One more step leaves the list of running threads right: only the thread that took
it can have ended. -/
theorem child_at (task : Task) (order : List Nat) (thread : Nat) :
    (Pending.at task order).child task.diagram thread = Pending.at task (order ++ [thread]) := by
  have hlive : (task.diagram.runningAfter task.inputs order).filter
        (fun other => other ≠ thread || (Replay.step task.diagram
          (task.diagram.replay task.inputs order) thread).machine.isRunning other)
      = task.diagram.runningAfter task.inputs (order ++ [thread]) := by
    unfold Diagram.runningAfter
    rw [List.filter_filter, Diagram.replay_append_singleton]
    refine List.filter_congr ?_
    intro other _
    by_cases hother : other = thread
    · subst hother
      rw [Bool.and_comm]
      cases hrun : (task.diagram.replay task.inputs order).machine.isRunning other with
      | true => simp
      | false =>
          -- a thread that has ended does not start again
          rw [Bool.false_and]
          refine ((Bool.eq_false_iff).mpr fun hafter => ?_).symm
          rw [Replay.step_of_not_running hrun, hrun] at hafter
          exact Bool.noConfusion hafter
    · rw [Replay.isRunning_step_of_ne hother]
      simp [hother]
  show Pending.mk _ _ _ = Pending.mk _ _ _
  rw [Diagram.replay_append_singleton]
  exact congrArg (Pending.mk _ · _) hlive

end Pending

namespace Search

variable {task : Task} {s : Search}

/-! ## One round -/

theorem visit_at (task : Task) (s : Search) (order : List Nat) :
    s.visit task (Pending.at task order) =
      { s with
        tally := task.score s.tally order
        waiting := if !task.ends order && !task.limits.cuts order.length
          then s.waiting.push (Pending.at task order) else s.waiting } := by
  -- what is live after the order decides whether the order is an end
  have hends : (Pending.at task order).live.isEmpty = task.ends order := by
    rw [Bool.eq_iff_iff, List.isEmpty_iff]
    exact Diagram.runningAfter_eq_nil_iff
  unfold visit
  rw [hends]
  cases he : task.ends order with
  | true => rw [Task.score_of_ends _ he]; rfl
  | false =>
      rw [Task.score_of_not_ends _ he]
      cases hc : task.limits.cuts order.length with
      | true => simp [Pending.at, hc, Tally.recordCut]
      | false => simp [Pending.at, hc]

/-- What visiting a list of orders in turn leaves behind. -/
theorem foldl_visit_at (task : Task) (s : Search) (orders : List (List Nat)) :
    let after := orders.foldl (fun s order => s.visit task (Pending.at task order)) s
    after.tally = orders.foldl task.score s.tally ∧
      after.waiting.toList = s.waiting.toList ++
        ((orders.filter fun order => !task.ends order && !task.limits.cuts order.length).map
          (Pending.at task)) ∧
      after.expanded = s.expanded ∧ after.reports = s.reports ∧ after.halted = s.halted := by
  induction orders generalizing s with
  | nil => simp
  | cons order rest ih =>
      obtain ⟨htally, hwaiting, hexpanded, hreports, hhalted⟩ :=
        ih (s.visit task (Pending.at task order))
      rw [visit_at] at htally hwaiting hexpanded hreports hhalted
      refine ⟨by rw [List.foldl_cons, visit_at]; exact htally, ?_,
        by rw [List.foldl_cons, visit_at]; exact hexpanded,
        by rw [List.foldl_cons, visit_at]; exact hreports,
        by rw [List.foldl_cons, visit_at]; exact hhalted⟩
      rw [List.foldl_cons, visit_at, hwaiting, List.filter_cons]
      cases hopen : !task.ends order && !task.limits.cuts order.length with
      | true => simp
      | false => simp

/-- Expanding a state visits the extensions of its order. -/
theorem expand_at (task : Task) (s : Search) (order : List Nat) :
    let after := s.expand task (Pending.at task order)
    after.tally = (task.extensions order).foldl task.score s.tally ∧
      after.waiting.toList =
        s.waiting.toList ++ (task.opened order).map (Pending.at task) ∧
      after.expanded = s.expanded + 1 ∧ after.reports = s.reports ∧ after.halted = s.halted := by
  -- the children of a state are the extensions of its order
  have hfold : s.expand task (Pending.at task order)
      = (task.extensions order).foldl (fun s order => s.visit task (Pending.at task order))
          { s with expanded := s.expanded + 1 } := by
    unfold expand Task.extensions
    rw [List.foldl_map]
    simp only [Pending.child_at]
    rfl
  rw [hfold]
  exact foldl_visit_at task _ _

/-- The tally of a search and the agenda it has gone through so far. As long as the
search has not been ended, its queue is the rest of the agenda. -/
structure Follows (task : Task) (s : Search) (done waiting : List (List Nat)) : Prop where
  agenda : task.Agenda done waiting
  tally : s.tally = task.findings done
  expanded : s.expanded = done.length
  queue : s.halted = false → s.waiting.toList = waiting.map (Pending.at task)

theorem follows_start (task : Task) : (Search.start task).Follows task [] [[]] where
  agenda := .start
  tally := rfl
  expanded := rfl
  queue _ := by
    show (Queue.singleton _).toList = _
    rw [Queue.toList_singleton, Pending.root_eq, List.map_singleton]

/-- Expanding the first order that waits is the step of the agenda. -/
theorem follows_expand {done rest : List (List Nat)} {order : List Nat}
    (hagenda : task.Agenda done (order :: rest)) (htally : s.tally = task.findings done)
    (hexpanded : s.expanded = done.length)
    (hqueue : s.waiting.toList = rest.map (Pending.at task)) :
    (s.expand task (Pending.at task order)).Follows task (done ++ [order])
      (rest ++ task.opened order) := by
  obtain ⟨htally', hwaiting', hexpanded', _, _⟩ := expand_at task s order
  refine ⟨.expand hagenda, ?_, ?_, fun _ => ?_⟩
  · rw [htally', htally, Task.findings, Task.findings, Task.tally, Task.tally,
      List.flatMap_append, List.foldl_append, List.flatMap_singleton]
  · rw [hexpanded', hexpanded, List.length_append, List.length_singleton]
  · rw [hwaiting', hqueue, List.map_append]

/-- A search follows only one agenda, since it counts what it has expanded. -/
theorem Follows.unique {done waiting done' waiting' : List (List Nat)}
    (hf : s.Follows task done waiting) (hf' : s.Follows task done' waiting') :
    done = done' ∧ waiting = waiting' :=
  hf.agenda.eq_of_length hf'.agenda (hf.expanded.symm.trans hf'.expanded)

/-- Reporting progress leaves the agenda alone. -/
theorem Follows.announce {done waiting : List (List Nat)} (hf : s.Follows task done waiting)
    (hgo : s.halted = false) : (s.announce task).Follows task done waiting := by
  unfold Search.announce
  split
  · exact ⟨hf.agenda, hf.tally, hf.expanded, fun _ => hf.queue hgo⟩
  · exact hf

/-- There is no further round once the search has been ended or nothing waits. -/
theorem next?_eq_none_iff {done waiting : List (List Nat)}
    (hf : s.Follows task done waiting) :
    s.next? task = none ↔ s.halted = true ∨ waiting = [] := by
  unfold next?
  cases hhalted : s.halted with
  | true => simp
  | false =>
      have hqueue := hf.queue hhalted
      cases hpop : s.waiting.pop? with
      | none =>
          rw [Queue.pop?_eq_none_iff] at hpop
          rw [hpop] at hqueue
          simpa using hqueue.symm
      | some popped =>
          rw [Queue.toList_of_pop? hpop] at hqueue
          have hne : waiting ≠ [] := by
            rintro rfl
            exact absurd hqueue (by simp)
          simp only [Bool.false_eq_true, if_false, hne, or_self, iff_false]
          split <;> simp

/-- What a round does to a search that follows its agenda. Either the search ends before
the next state, or it expands the first order that waits and may report. -/
theorem next?_cases {next : Search} {done waiting : List (List Nat)}
    (hf : s.Follows task done waiting) (h : s.next? task = some next) :
    (next = { s with waiting := next.waiting, halted := true } ∧
        next.Follows task done waiting ∧ waiting ≠ [] ∧
        (task.observer.stops s.expanded s.reports || task.limits.stopAfter s.expanded) = true) ∨
      ∃ order rest, waiting = order :: rest ∧
        (task.observer.stops s.expanded s.reports || task.limits.stopAfter s.expanded) = false ∧
        next.Follows task (done ++ [order]) (rest ++ task.opened order) ∧
        (task.limits.reportsAt next.expanded = false ∧
            next.reports = s.reports ∧ next.halted = false ∨
          task.limits.reportsAt next.expanded = true ∧
            next.reports = (task.findings (done ++ [order])).report false :: s.reports ∧
            next.halted = task.observer.ends next.reports) := by
  unfold next? at h
  split at h
  · exact absurd h (by simp)
  next hhalted =>
  rw [Bool.not_eq_true] at hhalted
  split at h
  · exact absurd h (by simp)
  next p queue hpop =>
  have hqueue := hf.queue hhalted
  rw [Queue.toList_of_pop? hpop] at hqueue
  cases waiting with
  | nil => exact absurd hqueue (by simp)
  | cons order rest =>
      obtain ⟨rfl, hrest⟩ := List.cons.inj hqueue
      dsimp only at h
      split at h
      · next hstop =>
        obtain rfl := Option.some.inj h
        exact .inl ⟨rfl, ⟨hf.agenda, hf.tally, hf.expanded, fun habs => Bool.noConfusion habs⟩,
          by simp, hstop⟩
      · next hgo =>
        -- the popped state is the first order that waits, so this is a step of the agenda
        obtain rfl := Option.some.inj h
        have hexpand := follows_expand (s := { s with waiting := queue }) hf.agenda hf.tally
          hf.expanded hrest
        obtain ⟨_, _, _, hreports, hhalt⟩ := expand_at task { s with waiting := queue } order
        have hhalt := hhalt.trans hhalted
        refine .inr ⟨order, rest, rfl, Bool.not_eq_true _ ▸ hgo, hexpand.announce hhalt, ?_⟩
        unfold Search.announce
        split
        · next hreport =>
          refine .inr ⟨hreport, ?_, rfl⟩
          show Tally.report _ false :: _ = _
          rw [hexpand.tally, hreports]
        · next hquiet => exact .inl ⟨Bool.not_eq_true _ ▸ hquiet, hreports, hhalt⟩

/-! ## All rounds -/

/-- The searches that the search for a task goes through. -/
inductive Reachable (task : Task) : Search → Prop where
  | start : Reachable task (Search.start task)
  | next {s s' : Search} : Reachable task s → s.next? task = some s' → Reachable task s'

/-- Wherever a search gets to, it follows an agenda, and each report it has given is
what some earlier agenda had found out. -/
theorem Reachable.follows (h : Reachable task s) :
    (∃ done waiting, s.Follows task done waiting) ∧
      ∀ report ∈ s.reports, ∃ done waiting, task.Agenda done waiting ∧
        report = (task.findings done).report false := by
  induction h with
  | start =>
      refine ⟨⟨_, _, follows_start task⟩, ?_⟩
      intro report hmem
      exact absurd hmem (by simp [Search.start])
  | @next s s' _ hnext ih =>
      obtain ⟨⟨done, waiting, hf⟩, hreports⟩ := ih
      rcases next?_cases hf hnext with ⟨heq, hf', _, _⟩ | ⟨order, rest, rfl, _, hf', hrep⟩
      · refine ⟨⟨_, _, hf'⟩, fun report hmem => hreports report ?_⟩
        rw [heq] at hmem
        exact hmem
      · refine ⟨⟨_, _, hf'⟩, ?_⟩
        intro report hmem
        rcases hrep with ⟨_, hsame, _⟩ | ⟨_, hmore, _⟩
        · exact hreports report (hsame ▸ hmem)
        · rw [hmore] at hmem
          rcases List.mem_cons.mp hmem with rfl | hmem
          · exact ⟨_, _, hf'.agenda, rfl⟩
          · exact hreports report hmem

/-- The observer has broken the search off, at the latest report of progress. -/
def BrokenOff (task : Task) (s : Search) : Prop :=
  s.reports ≠ [] ∧ task.observer.ends s.reports = true

/-- A search that was ended early was stopped before a state that it had in hand, and which
counts as waiting, or it was broken off. -/
theorem Reachable.halted_cases {done waiting : List (List Nat)} (hs : Reachable task s)
    (hhalted : s.halted = true) (hf : s.Follows task done waiting) :
    (waiting ≠ [] ∧
        (task.observer.stops s.expanded s.reports || task.limits.stopAfter s.expanded) = true) ∨
      s.BrokenOff task := by
  cases hs with
  | start => exact absurd hhalted (by simp [Search.start])
  | @next before _ hbefore hnext =>
      obtain ⟨done', waiting', hf'⟩ := hbefore.follows.1
      rcases next?_cases hf' hnext with ⟨heq, hsame, hne, hstop⟩ | ⟨_, _, _, _, _, hrep⟩
      · obtain ⟨-, rfl⟩ := hf.unique hsame
        rw [heq]
        exact .inl ⟨hne, hstop⟩
      · rcases hrep with ⟨_, _, hgo⟩ | ⟨_, hreports, hends⟩
        · rw [hgo] at hhalted
          exact Bool.noConfusion hhalted
        · exact .inr ⟨by simp [hreports], hends.symm.trans hhalted⟩

theorem run_of_ended (h : s.next? task = none) (fuel : Nat) :
    Search.run task (fuel + 1) s = some s := by
  rw [Search.run, h]

theorem run_of_next {next : Search} (h : s.next? task = some next) (fuel : Nat) :
    Search.run task (fuel + 1) s = Search.run task fuel next := by
  rw [Search.run, h]

/-- A run that has ended is not changed by more fuel. -/
theorem run_add {fuel : Nat} {last : Search} (h : Search.run task fuel s = some last)
    (extra : Nat) : Search.run task (fuel + extra) s = some last := by
  induction fuel generalizing s with
  | zero => exact absurd h (by simp [Search.run])
  | succ fuel ih =>
      rw [Nat.add_right_comm]
      cases hnext : s.next? task with
      | none =>
          rw [run_of_ended hnext] at h ⊢
          exact h
      | some next =>
          rw [run_of_next hnext] at h ⊢
          exact ih h

/-- The run from the start comes to any reachable search. -/
theorem Reachable.exists_rounds (hs : Reachable task s) :
    ∃ rounds, ∀ fuel, Search.run task (fuel + rounds) (Search.start task)
      = Search.run task fuel s := by
  induction hs with
  | start => exact ⟨0, fun fuel => rfl⟩
  | next _ hnext ih =>
      obtain ⟨rounds, hrun⟩ := ih
      refine ⟨rounds + 1, fun fuel => ?_⟩
      rw [← Nat.add_assoc, Nat.add_right_comm, hrun, run_of_next hnext]

/-- A reachable search with no round after it is what the search for the task comes to. -/
theorem Reachable.search_of_ended (hs : Reachable task s) (hended : s.next? task = none) :
    (∃ fuel, task.search fuel = some s) ∧
      ∀ fuel last, task.search fuel = some last → last = s := by
  obtain ⟨rounds, hrun⟩ := hs.exists_rounds
  refine ⟨⟨0 + 1 + rounds, (hrun _).trans (run_of_ended hended 0)⟩, fun fuel last h => ?_⟩
  have hlast := run_add h (1 + rounds)
  rw [← Nat.add_assoc, hrun, run_of_ended hended] at hlast
  exact (Option.some.inj hlast).symm

/-- What a run returns is reachable, and there is no round after it. -/
theorem reachable_of_run {fuel : Nat} {last : Search} (hs : Reachable task s)
    (h : Search.run task fuel s = some last) :
    Reachable task last ∧ last.next? task = none := by
  induction fuel generalizing s with
  | zero => exact absurd h (by simp [Search.run])
  | succ fuel ih =>
      cases hnext : s.next? task with
      | none =>
          rw [run_of_ended hnext] at h
          obtain rfl := Option.some.inj h
          exact ⟨hs, hnext⟩
      | some next =>
          rw [run_of_next hnext] at h
          exact ih (hs.next hnext) h

/-- A round expands one more state, unless it is the last one. -/
theorem Reachable.expanded_next {next : Search} (hs : Reachable task s)
    (h : s.next? task = some next) :
    next.next? task = none ∨ next.expanded = s.expanded + 1 := by
  obtain ⟨done, waiting, hf⟩ := hs.follows.1
  rcases next?_cases hf h with ⟨heq, hf', _, _⟩ | ⟨order, rest, rfl, _, hf', _⟩
  · exact .inl ((next?_eq_none_iff hf').mpr (.inl (by rw [heq])))
  · refine .inr ?_
    rw [hf'.expanded, List.length_append, List.length_singleton, hf.expanded]

/-- A search that never expands more than so many states ends. -/
theorem exists_run_of_expanded_le {bound : Nat}
    (hbound : ∀ s, Reachable task s → s.expanded ≤ bound) (hs : Reachable task s) :
    ∃ last, Search.run task (bound - s.expanded + 2) s = some last := by
  generalize hfuel : bound - s.expanded = fuel
  induction fuel generalizing s with
  | zero =>
      cases hnext : s.next? task with
      | none => exact ⟨s, run_of_ended hnext _⟩
      | some next =>
          rw [run_of_next hnext]
          rcases hs.expanded_next hnext with hended | hgrow
          · exact ⟨next, run_of_ended hended _⟩
          · have hle := hbound next (hs.next hnext)
            omega
  | succ fuel ih =>
      cases hnext : s.next? task with
      | none => exact ⟨s, run_of_ended hnext _⟩
      | some next =>
          rw [run_of_next hnext]
          rcases hs.expanded_next hnext with hended | hgrow
          · exact ⟨next, run_of_ended hended _⟩
          · exact ih (hs.next hnext) (by omega)

end Search

end Flowchart
