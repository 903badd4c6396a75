import Flowchart.Proofs.Explore.StateCap
import Flowchart.Proofs.History

/-!
# What waits in the queue

An entry of the queue is an order with two things kept beside it: the threads that still
run, from which finished ones are struck off by hand, and the place that the order leads
to, which is carried along step by step. Both could go wrong without a sound. They do not:
each entry that waits is a schedule with the threads that run after it and the place that a
replay of it comes to, and so is each child that is made of it (`Pending.Accurate`).

As orders the entries are all different, and none has been expanded before. To say so
the orders that have been expanded are kept beside the search (`Search.Expanded`). A search
that was ended early may have lost the first entry of its queue, so that what waits is the
end of an agenda and not all of it (`Search.Expanded.queue`).
-/

namespace Flowchart

/-- The entry says of its order what a replay of the order finds out. -/
structure Pending.Accurate (task : Task) (p : Pending) : Prop where
  schedule : task.diagram.Schedule task.inputs p.order
  live_ne_nil : p.live ≠ []
  ascending : p.live.Pairwise (· < ·)
  mem_live_iff : ∀ thread, thread ∈ p.live ↔
    (task.diagram.replay task.inputs p.order).machine.isRunning thread = true
  state_eq : p.state = task.diagram.replay task.inputs p.order
  /-- No step is taken in vain: the thread that takes it counts it. -/
  moves : ∀ thread ∈ p.live, p.state.isIdle thread = false ∧
    ∃ before after, p.state.cursors[thread]? = some before ∧
      (p.child task.diagram thread).state.cursors[thread]? = some after ∧
      after.steps = before.steps + 1
  /-- One more step leads to where a replay of the longer order leads. -/
  child_state_eq : ∀ thread ∈ p.live, (p.child task.diagram thread).state =
    task.diagram.replay task.inputs (p.order ++ [thread])
  /-- The cursors that are looked up after the step are there. -/
  child_cursors : ∀ thread ∈ p.live, ∀ other ∈ p.live,
    other < (p.child task.diagram thread).state.cursors.length

/-- The entry of an order after which some thread runs. -/
theorem Pending.accurate_at {task : Task} {order : List Nat}
    (h : task.diagram.Live task.inputs order) : (Pending.at task order).Accurate task := by
  have hrunning {thread : Nat} (hmem : thread ∈ (Pending.at task order).live) :
      (task.diagram.replay task.inputs order).machine.isRunning thread = true :=
    Diagram.mem_runningAfter.mp hmem
  have hchild (thread : Nat) : ((Pending.at task order).child task.diagram thread).state =
      task.diagram.replay task.inputs (order ++ [thread]) :=
    congrArg Pending.state (Pending.child_at task order thread)
  refine ⟨h.schedule, fun hnil => ?_, Diagram.pairwise_runningAfter _ _ _,
    fun thread => Diagram.mem_runningAfter, rfl, fun thread hmem => ⟨?_, ?_⟩,
    fun thread _ => hchild thread, fun thread _ other hother => ?_⟩
  · have hover := Diagram.runningAfter_eq_nil_iff.mp hnil
    rw [h.goesOn] at hover
    exact Bool.noConfusion hover
  · show (task.diagram.replay task.inputs order).isIdle thread = false
    rw [Replay.isIdle_eq, hrunning hmem, Bool.not_true]
  · obtain ⟨before, control, hbefore, hset⟩ :=
      Replay.cursors_step_of_running (hrunning hmem) task.diagram
    refine ⟨before, ⟨control, before.steps + 1⟩, hbefore, ?_, rfl⟩
    rw [hchild, Diagram.replay_append_singleton, hset]
    exact List.getElem?_set_self (List.getElem?_eq_some_iff.mp hbefore).1
  · have hlt := Machine.isRunning_lt (hrunning hother)
    rw [Diagram.length_cursors_replay] at hlt
    rw [hchild]
    exact hlt.trans_eq (Diagram.length_cursors_replay _ _ _).symm

namespace Search

variable {task : Task} {s : Search} {done waiting : List (List Nat)}

/-- The search for the task comes to this after it has expanded these orders, in turn. -/
inductive Expanded (task : Task) : List (List Nat) → Search → Prop where
  | start : Expanded task [] (Search.start task)
  | next {done : List (List Nat)} {s next : Search} :
      Expanded task done s → s.next? task = some next →
      Expanded task (done ++ ((s.expanding? task).map (·.order)).toList) next

theorem Reachable.exists_expanded (h : Reachable task s) : ∃ done, Expanded task done s := by
  induction h with
  | start => exact ⟨[], .start⟩
  | next _ hnext ih =>
      obtain ⟨done, hdone⟩ := ih
      exact ⟨_, hdone.next hnext⟩

theorem waiting_announce (task : Task) (s : Search) : (s.announce task).waiting = s.waiting := by
  unfold announce
  split <;> rfl

/-- After a round what waits is the end of an agenda. It is not all of it where the search
has ended with a state in hand. -/
theorem Follows.queue_next {next : Search} (hf : s.Follows task done waiting)
    (h : s.next? task = some next) :
    ∃ done' waiting', next.Follows task done' waiting' ∧
      ∃ entries, entries <:+ waiting' ∧
        next.waiting.toList = entries.map (Pending.at task) := by
  unfold next? at h
  split at h
  · exact absurd h (by simp)
  next hhalted =>
  rw [Bool.not_eq_true] at hhalted
  split at h
  · exact absurd h (by simp)
  next p queue hpop =>
  have hqueue := hf.queue hhalted
  rw [Queue.toList_of_pop? hpop] at hqueue
  cases waiting with
  | nil => exact absurd hqueue (by simp)
  | cons order rest =>
      obtain ⟨rfl, hrest⟩ := List.cons.inj hqueue
      dsimp only at h
      split at h
      · obtain rfl := Option.some.inj h
        exact ⟨done, order :: rest, ⟨hf.agenda, hf.tally, hf.expanded, Bool.noConfusion⟩, rest,
          List.suffix_cons _ _, hrest⟩
      · obtain rfl := Option.some.inj h
        have hexpand := follows_expand (s := { s with waiting := queue }) hf.agenda hf.tally
          hf.expanded hrest
        have hgo : (({ s with waiting := queue } : Search).expand task
            (Pending.at task order)).halted = false :=
          (expand_at task { s with waiting := queue } order).2.2.2.2.trans hhalted
        refine ⟨_, _, hexpand.announce hgo, _, List.suffix_rfl, ?_⟩
        rw [waiting_announce, hexpand.queue hgo]

/-- Wherever a search gets to, what has been expanded is what its agenda has done, and what
waits is the end of its agenda. -/
theorem Expanded.queue (h : Expanded task done s) :
    ∃ waiting, s.Follows task done waiting ∧
      ∃ entries, entries <:+ waiting ∧ s.waiting.toList = entries.map (Pending.at task) := by
  induction h with
  | start => exact ⟨_, follows_start task, _, List.suffix_rfl, (follows_start task).queue rfl⟩
  | next _ hnext ih =>
      obtain ⟨waiting, hf, -⟩ := ih
      obtain ⟨waiting', hround⟩ := hf.round hnext
      obtain ⟨done', waiting'', hnext', entries, hentries, hqueue⟩ := hf.queue_next hnext
      obtain ⟨rfl, rfl⟩ := hround.unique hnext'
      exact ⟨waiting', hround, entries, hentries, hqueue⟩

/-- The queue of a search that has expanded these orders. -/
structure Accurate (task : Task) (done : List (List Nat)) (s : Search) : Prop where
  entries : ∀ p ∈ s.waiting.toList, p.Accurate task
  /-- No order waits twice. -/
  nodup : (s.waiting.toList.map (·.order)).Nodup
  /-- No order that waits has been expanded. -/
  fresh : ∀ p ∈ s.waiting.toList, p.order ∉ done

theorem Expanded.accurate (hd : task.diagram.threads ≠ []) (h : Expanded task done s) :
    s.Accurate task done := by
  obtain ⟨waiting, hf, entries, hentries, hqueue⟩ := h.queue
  have horders : s.waiting.toList.map (·.order) = entries := by
    rw [hqueue, List.map_map]
    exact List.map_id' entries
  obtain ⟨-, hnodup, hdisjoint⟩ := List.nodup_append.mp hf.agenda.nodup
  refine ⟨fun p hmem => ?_, horders ▸ hentries.sublist.nodup hnodup, fun p hmem hdone => ?_⟩
  · rw [hqueue] at hmem
    obtain ⟨order, horder, rfl⟩ := List.mem_map.mp hmem
    exact Pending.accurate_at
      (hf.agenda.isOpen hd order (List.mem_append_right _ (hentries.mem horder))).live
  · have hentry : p.order ∈ entries := horders ▸ List.mem_map_of_mem hmem
    exact hdisjoint _ hdone _ (hentries.mem hentry) rfl

end Search

/-- **Queue entries describe real states.** Wherever a search gets to, there are orders that it
has expanded on the way. Each entry of its queue is a schedule other than these and other
than those of the other entries, beside which stand the threads that run after it, in
ascending order and at least one, and the place that a replay of it leads to. The step of
any of these threads is counted, and it leads to where a replay of the longer order leads. -/
theorem Task.queue_accurate (task : Task) (hd : task.diagram.threads ≠ []) (s : Search)
    (h : Search.Reachable task s) :
    (∃ done, Search.Expanded task done s) ∧
      ∀ done, Search.Expanded task done s → s.Accurate task done :=
  ⟨h.exists_expanded, fun _ hdone => hdone.accurate hd⟩

/-- A search that is cut off after three states, with others waiting. -/
theorem Task.queue_accurate_oneReply :
    (oneReply ⟨some 3, none, 1⟩).diagram.threads ≠ [] ∧
      ∃ s, Search.Reachable (oneReply ⟨some 3, none, 1⟩) s ∧
        s.waiting.toList.map (·.order) = [[0, 1], [1, 0], [1, 1]] ∧
        ∃ done, Search.Expanded (oneReply ⟨some 3, none, 1⟩) done s ∧
          s.Accurate (oneReply ⟨some 3, none, 1⟩) done := by
  obtain ⟨s, hs, hwaiting⟩ : ∃ s ∈ (oneReply ⟨some 3, none, 1⟩).search 20,
      s.waiting.toList.map (·.order) = [[0, 1], [1, 0], [1, 1]] := by decide
  have hreach : Search.Reachable (oneReply ⟨some 3, none, 1⟩) s :=
    (Search.reachable_of_run .start hs).1
  obtain ⟨⟨done, hdone⟩, haccurate⟩ :=
    queue_accurate (oneReply ⟨some 3, none, 1⟩) (by decide) s hreach
  exact ⟨by decide, s, hreach, hwaiting, done, hdone, haccurate done hdone⟩

end Flowchart
