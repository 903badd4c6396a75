import Flowchart.Proofs.Explore.Independence
import Mathlib.Data.Nat.Choose.Multinomial

/-!
# Counting interleavings

How many schedules there are can be told where each thread takes a fixed number of steps,
whoever steps before it. Such threads are paced (`Diagram.Paced`). Their schedules are the
orders in which none takes too many steps, and the complete ones are the words in which each
thread comes as often as it has steps (`Paced.complete_iff`). So a search for them comes to
its end, and it counts as many runs as there are such words, which is the multinomial
coefficient (`explore_paced`). Threads need not be independent to be paced, only threads
that share nothing always are (`Separate.paced`); for others finitely many orders tell
(`paced_of_orders`).

The words are listed by their last number (`interleavings`): before it there is a word with
one number less of its kind. This gives the recurrence of the multinomial coefficients
(`length_interleavings`).
-/

open scoped Nat

namespace Flowchart

/-! ## Words with given counts -/

/-- The words of a length over the numbers below `T` in which each number comes as often as
it is said to. -/
def interleavings (T : Nat) : (length : Nat) → (counts : Nat → Nat) → List (List Nat)
  | 0, _ => [[]]
  | n + 1, s => (List.range T).flatMap fun last =>
      if 0 < s last then
        (interleavings T n (Function.update s last (s last - 1))).map fun order => order ++ [last]
      else []

section Words

variable {T n last : Nat} {s : Nat → Nat} {order : List Nat}

theorem sum_update (hlast : last < T) (hpos : 0 < s last)
    (hs : ∑ i ∈ Finset.range T, s i = n + 1) :
    ∑ i ∈ Finset.range T, Function.update s last (s last - 1) i = n := by
  have hmem := Finset.mem_range.mpr hlast
  rw [Finset.sum_update_of_mem hmem]
  rw [Finset.sum_eq_add_sum_sdiff_singleton_of_mem hmem] at hs
  omega

theorem prod_factorial_update (hlast : last < T) (hpos : 0 < s last) :
    (∏ i ∈ Finset.range T, (Function.update s last (s last - 1) i)!) * s last
      = ∏ i ∈ Finset.range T, (s i)! := by
  have hmem := Finset.mem_range.mpr hlast
  have hrest : ∏ i ∈ Finset.range T \ {last}, (Function.update s last (s last - 1) i)!
      = ∏ i ∈ Finset.range T \ {last}, (s i)! := by
    refine Finset.prod_congr rfl fun i hi => ?_
    rw [Function.update_of_ne (by simpa using (Finset.mem_sdiff.mp hi).2)]
  rw [Finset.prod_eq_mul_prod_sdiff_singleton_of_mem hmem, hrest, Function.update_self,
    Finset.prod_eq_mul_prod_sdiff_singleton_of_mem hmem fun i => (s i)!,
    ← Nat.mul_factorial_pred (Nat.ne_of_gt hpos)]
  ring

theorem mem_interleavings_succ :
    order ∈ interleavings T (n + 1) s ↔ ∃ last before, last < T ∧ 0 < s last ∧
      before ∈ interleavings T n (Function.update s last (s last - 1)) ∧
        order = before ++ [last] := by
  rw [interleavings, List.mem_flatMap]
  constructor
  · rintro ⟨last, hlast, hmem⟩
    split at hmem
    · next hpos =>
      obtain ⟨before, hbefore, rfl⟩ := List.mem_map.mp hmem
      exact ⟨last, before, List.mem_range.mp hlast, hpos, hbefore, rfl⟩
    · exact absurd hmem List.not_mem_nil
  · rintro ⟨last, before, hlast, hpos, hbefore, rfl⟩
    refine ⟨last, List.mem_range.mpr hlast, ?_⟩
    rw [if_pos hpos]
    exact List.mem_map_of_mem hbefore

/-- The counts of a word add up to its length. -/
theorem sum_count (horder : ∀ thread ∈ order, thread < T) :
    ∑ i ∈ Finset.range T, order.count i = order.length := by
  have hsum := Multiset.sum_count_eq_card (s := Finset.range T) (m := (order : Multiset Nat))
    fun thread hmem => Finset.mem_range.mpr (horder thread hmem)
  simpa using hsum

theorem count_snoc_iff {before : List Nat} (hpos : 0 < s last) (i : Nat) :
    (before ++ [last]).count i = s i
      ↔ before.count i = Function.update s last (s last - 1) i := by
  rw [List.count_append]
  by_cases heq : i = last
  · subst heq
    rw [List.count_singleton_self, Function.update_self]
    omega
  · rw [List.count_singleton, if_neg (by simpa using Ne.symm heq), Function.update_of_ne heq,
      Nat.add_zero]

theorem mem_interleavings (hs : ∑ i ∈ Finset.range T, s i = n) :
    order ∈ interleavings T n s ↔
      (∀ thread ∈ order, thread < T) ∧ ∀ i < T, order.count i = s i := by
  induction n generalizing s order with
  | zero =>
      have hzero (i : Nat) (hi : i < T) : s i = 0 :=
        Finset.sum_eq_zero_iff.mp hs i (Finset.mem_range.mpr hi)
      rw [interleavings, List.mem_singleton]
      constructor
      · rintro rfl
        exact ⟨by simp, fun i hi => (hzero i hi).symm⟩
      · rintro ⟨horder, hcount⟩
        refine List.eq_nil_iff_forall_not_mem.mpr fun thread hmem => ?_
        have hthread := horder thread hmem
        exact List.count_eq_zero.mp ((hcount thread hthread).trans (hzero thread hthread)) hmem
  | succ n ih =>
      rw [mem_interleavings_succ]
      constructor
      · rintro ⟨last, before, hlast, hpos, hbefore, rfl⟩
        obtain ⟨horder, hcount⟩ := (ih (sum_update hlast hpos hs)).mp hbefore
        refine ⟨fun thread hmem => ?_, fun i hi => (count_snoc_iff hpos i).mpr (hcount i hi)⟩
        rcases List.mem_append.mp hmem with hmem | hmem
        · exact horder thread hmem
        · exact List.mem_singleton.mp hmem ▸ hlast
      · rintro ⟨horder, hcount⟩
        rcases List.eq_nil_or_concat' order with rfl | ⟨before, last, rfl⟩
        · have hlength := sum_count horder
          rw [Finset.sum_congr rfl fun i hi => hcount i (Finset.mem_range.mp hi), hs] at hlength
          exact absurd hlength (by simp)
        · have hlast : last < T := horder last (by simp)
          have hpos : 0 < s last := hcount last hlast ▸ List.count_pos_iff.mpr (by simp)
          refine ⟨last, before, hlast, hpos, (ih (sum_update hlast hpos hs)).mpr ⟨?_, ?_⟩, rfl⟩
          · exact fun thread hmem => horder thread (by simp [hmem])
          · exact fun i hi => (count_snoc_iff hpos i).mp (hcount i hi)

theorem nodup_interleavings (T n : Nat) (s : Nat → Nat) : (interleavings T n s).Nodup := by
  induction n generalizing s with
  | zero => exact List.nodup_singleton _
  | succ n ih =>
      rw [interleavings, List.nodup_flatMap]
      constructor
      · intro last _
        split
        · exact (ih _).map fun a b heq => (List.append_singleton_inj.mp heq).1
        · exact List.nodup_nil
      · refine List.nodup_range.imp fun {a b} hne order ha hb => ?_
        dsimp only at ha hb
        split at ha
        · split at hb
          · obtain ⟨_, _, rfl⟩ := List.mem_map.mp ha
            obtain ⟨_, _, heq⟩ := List.mem_map.mp hb
            exact hne (List.append_singleton_inj.mp heq).2.symm
          · exact absurd hb List.not_mem_nil
        · exact absurd ha List.not_mem_nil

/-- **As many words as the multinomial coefficient says.** -/
theorem length_interleavings (hs : ∑ i ∈ Finset.range T, s i = n) :
    (interleavings T n s).length * ∏ i ∈ Finset.range T, (s i)! = n ! := by
  induction n generalizing s with
  | zero =>
      have hone : ∏ i ∈ Finset.range T, (s i)! = 1 := by
        refine Finset.prod_eq_one fun i hi => ?_
        rw [Finset.sum_eq_zero_iff.mp hs i hi, Nat.factorial_zero]
      rw [hone]
      rfl
  | succ n ih =>
      -- the words that end with one number are as many as it still has to come, times `n !`
      have hlast : ∀ last ∈ Finset.range T,
          (if 0 < s last then
            (interleavings T n (Function.update s last (s last - 1))).map
              fun order => order ++ [last] else []).length * ∏ i ∈ Finset.range T, (s i)!
            = s last * n ! := by
        intro last hmem
        have hlt := Finset.mem_range.mp hmem
        split
        · next hpos =>
          rw [List.length_map, ← prod_factorial_update hlt hpos, ← mul_assoc,
            ih (sum_update hlt hpos hs), mul_comm]
        · next hnone =>
          rw [Nat.eq_zero_of_not_pos hnone]
          simp
      rw [interleavings, List.length_flatMap]
      show (∑ last ∈ Finset.range T, _) * _ = _
      rw [Finset.sum_mul, Finset.sum_congr rfl hlast, ← Finset.sum_mul, hs, Nat.factorial_succ]

end Words

/-! ## Threads that take a fixed number of steps -/

namespace Diagram

variable {d : Diagram} {inputs : List String} {s : Nat → Nat} {order : List Nat}

/-- If a thread runs only while it has taken less than its number of steps, no schedule lets
it take more. -/
theorem Schedule.count_le (hschedule : d.Schedule inputs order)
    (h : ∀ before thread, d.Schedule inputs before →
      (∀ i < d.threads.length, before.count i ≤ s i) → thread < d.threads.length →
      (d.replay inputs before).machine.isRunning thread = true → before.count thread < s thread) :
    ∀ i < d.threads.length, order.count i ≤ s i := by
  induction hschedule with
  | nil => simp
  | @snoc before thread hbefore hrun ih =>
      intro i hi
      rw [List.count_append, List.count_singleton]
      split
      · next heq =>
        obtain rfl := beq_iff_eq.mp heq
        exact h before thread hbefore ih hi hrun
      · exact ih i hi

/-- Each thread takes its number of steps, whatever the schedule: it runs as long as it has
taken less, and then it has ended. Since every thread runs at first, its number is at least
one. -/
def Paced (d : Diagram) (inputs : List String) (s : Nat → Nat) : Prop :=
  ∀ order, d.Schedule inputs order → ∀ i < d.threads.length,
    (d.replay inputs order).machine.isRunning i = true ↔ order.count i < s i

namespace Paced

/-- A schedule of paced threads is an order in which none takes too many steps. -/
theorem schedule_iff (h : d.Paced inputs s) :
    d.Schedule inputs order ↔ (∀ thread ∈ order, thread < d.threads.length) ∧
      ∀ i < d.threads.length, order.count i ≤ s i := by
  constructor
  · intro hschedule
    exact ⟨hschedule.lt, hschedule.count_le fun before thread hbefore _ hthread hrun =>
      (h before hbefore thread hthread).mp hrun⟩
  · rintro ⟨horder, hcount⟩
    induction order using List.reverseRecOn with
    | nil => exact .nil
    | append_singleton order thread ih =>
        have hthread : thread < d.threads.length := horder thread (by simp)
        have hbefore : d.Schedule inputs order := by
          refine ih (fun other hmem => horder other (by simp [hmem])) fun i hi => ?_
          have hi := hcount i hi
          rw [List.count_append] at hi
          omega
        have hself := hcount thread hthread
        rw [List.count_append, List.count_singleton_self] at hself
        exact hbefore.snoc ((h order hbefore thread hthread).mpr hself)

/-- In a complete schedule of paced threads each one takes its number of steps. -/
theorem complete_iff (h : d.Paced inputs s) :
    d.Complete inputs order ↔ (∀ thread ∈ order, thread < d.threads.length) ∧
      ∀ i < d.threads.length, order.count i = s i := by
  constructor
  · rintro ⟨hschedule, hended⟩
    obtain ⟨horder, hcount⟩ := h.schedule_iff.mp hschedule
    refine ⟨horder, fun i hi => Nat.le_antisymm (hcount i hi) (Nat.le_of_not_lt fun hlt => ?_)⟩
    have hrun := (h order hschedule i hi).mpr hlt
    rw [Machine.isOver_iff.mp hended i] at hrun
    exact Bool.noConfusion hrun
  · rintro ⟨horder, hcount⟩
    have hschedule : d.Schedule inputs order :=
      h.schedule_iff.mpr ⟨horder, fun i hi => Nat.le_of_eq (hcount i hi)⟩
    refine ⟨hschedule, Machine.isOver_iff.mpr fun i => Bool.eq_false_iff.mpr fun hrun => ?_⟩
    have hi : i < d.threads.length := length_cursors_replay d inputs order ▸ Machine.isRunning_lt hrun
    have hlt := (h order hschedule i hi).mp hrun
    rw [hcount i hi] at hlt
    exact absurd hlt (Nat.lt_irrefl _)

/-- All complete schedules of paced threads have the length of all their steps. -/
theorem length_of_complete (h : d.Paced inputs s) (hcomplete : d.Complete inputs order) :
    order.length = ∑ i ∈ Finset.range d.threads.length, s i := by
  obtain ⟨horder, hcount⟩ := h.complete_iff.mp hcomplete
  rw [← sum_count horder]
  exact Finset.sum_congr rfl fun i hi => hcount i (Finset.mem_range.mp hi)

/-- As long as a paced thread runs, not all steps have been taken. -/
theorem length_lt_of_live (h : d.Paced inputs s) (hlive : d.Live inputs order) :
    order.length < ∑ i ∈ Finset.range d.threads.length, s i := by
  obtain ⟨horder, hcount⟩ := h.schedule_iff.mp hlive.schedule
  obtain ⟨i, hrun⟩ : ∃ i, (d.replay inputs order).machine.isRunning i = true := by
    by_contra hnone
    have hover := Machine.isOver_iff.mpr (by simpa using hnone)
    rw [hlive.goesOn] at hover
    exact Bool.noConfusion hover
  have hi : i < d.threads.length := length_cursors_replay d inputs order ▸ Machine.isRunning_lt hrun
  rw [← sum_count horder]
  exact Finset.sum_lt_sum (fun j hj => hcount j (Finset.mem_range.mp hj))
    ⟨i, Finset.mem_range.mpr hi, (h order hlive.schedule i hi).mp hrun⟩

end Paced

/-- Whether threads are paced can be told from the orders in which none takes too many
steps, and these are finitely many. -/
theorem paced_of_orders
    (h : ∀ order ∈ Task.Agenda.ordersBelow d.threads.length
        (∑ i ∈ Finset.range d.threads.length, s i + 1),
      (∀ i < d.threads.length, order.count i ≤ s i) → ∀ i < d.threads.length,
        (d.replay inputs order).machine.isRunning i = decide (order.count i < s i)) :
    d.Paced inputs s := by
  have hrunning (order : List Nat) (hschedule : d.Schedule inputs order)
      (hcount : ∀ i < d.threads.length, order.count i ≤ s i) (i : Nat)
      (hi : i < d.threads.length) :
      (d.replay inputs order).machine.isRunning i = decide (order.count i < s i) := by
    refine h order (List.mem_flatMap.mpr ⟨order.length, List.mem_range.mpr ?_,
      Task.Agenda.mem_orders hschedule.lt⟩) hcount i hi
    rw [← sum_count hschedule.lt, Nat.lt_succ_iff]
    exact Finset.sum_le_sum fun j hj => hcount j (Finset.mem_range.mp hj)
  intro order hschedule i hi
  have hcount : ∀ i < d.threads.length, order.count i ≤ s i :=
    hschedule.count_le fun before thread hbefore hcount hthread hrun => by
      rw [hrunning before hbefore hcount thread hthread] at hrun
      exact of_decide_eq_true hrun
  rw [hrunning order hschedule hcount i hi, decide_eq_true_iff]

/-- Threads that share nothing are paced by any complete schedule. -/
theorem Separate.paced (hd : d.Separate) (h : d.Complete inputs order) :
    d.Paced inputs order.count := by
  intro other hother i _
  constructor
  · intro hrun
    have hle := hd.count_le h (hother.snoc hrun) i
    rwa [List.count_append, List.count_singleton_self] at hle
  · intro hlt
    obtain ⟨before, hcount, hrun⟩ := h.schedule.exists_running hlt
    -- the thread stands where it stood after as many steps
    have hview := (hd.sameView_replay inputs before i).cursor
    rw [hcount, ← (hd.sameView_replay inputs other i).cursor] at hview
    unfold Machine.isRunning at hrun ⊢
    rwa [← hview]

end Diagram

/-! ## The search over paced threads -/

namespace Task

variable {task : Task} {s : Nat → Nat}

/-- A search over paced threads without a length limit comes to its end. -/
theorem exists_explore_of_paced (hd : task.diagram.threads ≠ [])
    (h : task.diagram.Paced task.inputs s) : ∃ fuel report, task.explore fuel = some report :=
  exists_explore_of_length_le fun _ _ hagenda =>
    hagenda.length_done_le hd fun _ hopen => h.length_lt_of_live hopen.live

/-- The runs of paced threads are their interleavings. -/
theorem mem_runs_of_paced (h : task.diagram.Paced task.inputs s)
    (hsteps : task.limits.maxSteps = none) (order : List Nat) :
    order ∈ task.runs ↔ order ∈ interleavings task.diagram.threads.length
      (∑ i ∈ Finset.range task.diagram.threads.length, s i) s := by
  rw [mem_interleavings rfl, ← h.complete_iff]
  refine and_iff_left fun limit hlimit => ?_
  rw [hsteps] at hlimit
  exact absurd hlimit (by simp)

theorem ncard_runs_of_paced (h : task.diagram.Paced task.inputs s)
    (hsteps : task.limits.maxSteps = none) :
    task.runs.ncard = (∑ i ∈ Finset.range task.diagram.threads.length, s i)!
      / ∏ i ∈ Finset.range task.diagram.threads.length, (s i)! := by
  have hruns : task.runs = (interleavings task.diagram.threads.length
      (∑ i ∈ Finset.range task.diagram.threads.length, s i) s).toFinset := by
    ext order
    rw [mem_runs_of_paced h hsteps, List.coe_toFinset, Set.mem_ofPred_eq]
  rw [hruns, Set.ncard_coe_finset, List.toFinset_card_of_nodup (nodup_interleavings _ _ _),
    ← length_interleavings rfl]
  exact (Nat.mul_div_cancel _ (Nat.prod_factorial_pos _ _)).symm

theorem nonempty_runs_of_paced (h : task.diagram.Paced task.inputs s)
    (hsteps : task.limits.maxSteps = none) : task.runs.Nonempty := by
  have hcount := length_interleavings (T := task.diagram.threads.length) (s := s) rfl
  have hpos := hcount ▸ Nat.factorial_pos _
  obtain ⟨order, hmem⟩ := List.exists_mem_of_length_pos (Nat.pos_of_mul_pos_right hpos)
  exact ⟨order, (mem_runs_of_paced h hsteps order).mpr hmem⟩

/-- Without a length limit nothing is given up. -/
theorem Exact.truncated_eq_zero {report : Report Rate} (h : task.Exact report)
    (hsteps : task.limits.maxSteps = none) : report.truncated = 0 := by
  have hnone : task.givenUp = ∅ :=
    Set.eq_empty_of_forall_notMem fun order hmem => absurd (hsteps.symm.trans hmem.2) (by simp)
  rw [h.truncated, hnone, Set.ncard_empty]

/-- Below the length of all runs nothing is counted. -/
theorem Exact.get?_rates_of_lt {report : Report Rate} (h : task.Exact report) {k : Nat}
    (hpos : 1 ≤ k) (hk : k ≤ report.maxSteps) (hlonger : ∀ order ∈ task.runs, k < order.length) :
    report.rates.get? k = some .zero := by
  have hnone : {order ∈ task.runs | order.length ≤ k} = ∅ :=
    Set.eq_empty_of_forall_notMem fun order hmem => Nat.not_le.mpr (hlonger order hmem.1) hmem.2
  have hnone' : {order ∈ task.runs | order.length ≤ k ∧ task.meets order = true} = ∅ :=
    Set.eq_empty_of_forall_notMem fun order hmem => Nat.not_le.mpr (hlonger order hmem.1) hmem.2.1
  rw [h.rates, if_pos ⟨hpos, hk⟩, hnone, hnone', Set.ncard_empty]
  rfl

/-- **Multinomial run count.** If each thread takes a fixed number of steps, whatever the
schedule, a search without limits comes to its end and counts as many runs as there are ways
to interleave the steps. All runs take all steps, so none is shorter or given up. -/
theorem explore_paced (task : Task) (hd : task.diagram.threads ≠ []) (hq : task.observer.Quiet)
    (hstates : task.limits.maxStates = none) (hsteps : task.limits.maxSteps = none)
    (h : task.diagram.Paced task.inputs s) :
    (∃ fuel report, task.explore fuel = some report) ∧
      ∀ fuel report, task.explore fuel = some report →
        report.total = (∑ i ∈ Finset.range task.diagram.threads.length, s i)!
            / ∏ i ∈ Finset.range task.diagram.threads.length, (s i)! ∧
          report.maxSteps = ∑ i ∈ Finset.range task.diagram.threads.length, s i ∧
          report.truncated = 0 ∧ report.interrupted = false ∧
          (∀ order ∈ task.runs,
            order.length = ∑ i ∈ Finset.range task.diagram.threads.length, s i) ∧
          (∀ k, 1 ≤ k → k < report.maxSteps → report.rates.get? k = some .zero) ∧
          (task.diagram.threads.length = 2 →
            report.total = (s 0 + s 1).choose (s 0)) := by
  refine ⟨exists_explore_of_paced hd h, fun fuel report hexplore => ?_⟩
  have hexact := exact_of_explore hd hq hstates
    (fun limit hlimit => absurd (hsteps.symm.trans hlimit) (by simp)) hexplore
  have htotal := hexact.total.trans (ncard_runs_of_paced h hsteps)
  have hlength : ∀ order ∈ task.runs,
      order.length = ∑ i ∈ Finset.range task.diagram.threads.length, s i :=
    fun order hmem => h.length_of_complete hmem.1
  have hmax : report.maxSteps = ∑ i ∈ Finset.range task.diagram.threads.length, s i := by
    obtain ⟨order, hmem⟩ := nonempty_runs_of_paced h hsteps
    obtain ⟨before, thread, rfl, -, -⟩ := hmem.1.eq_snoc hd
    have hle := hexact.length_le _ hmem
    rw [List.length_append, List.length_singleton] at hle
    obtain ⟨longest, hlongest, heq⟩ := hexact.maxSteps_attained (by omega)
    rw [← heq, hlength longest hlongest]
  have htruncated := hexact.truncated_eq_zero hsteps
  refine ⟨htotal, hmax, htruncated, ?_, hlength, fun k hpos hk => ?_, fun htwo => ?_⟩
  · rw [Bool.eq_false_iff, Ne, hexact.interrupted, htruncated]
    exact Nat.lt_irrefl 0
  · refine hexact.get?_rates_of_lt hpos (Nat.le_of_lt hk) fun order hmem => ?_
    rwa [hlength order hmem, ← hmax]
  · rw [htotal, htwo, Finset.sum_range_succ, Finset.sum_range_one, Finset.prod_range_succ,
      Finset.prod_range_one, ← Nat.add_choose, Nat.choose_symm_add]

/-- Two threads give the same variable a value and one of them prints it, so it matters who
steps first. A third thread does nothing. -/
def raceAndPrint : Task where
  diagram := {
    declared := [⟨"n", .int⟩]
    blocks := ⟨[(1, .assign 1 2 "n = n + 1"), (2, .stop 2 none), (3, .assign 3 4 "n = n * 2"),
      (4, .print 4 2 "n")], by decide⟩
    threads := [1, 3, 2]
    names_nodup := by decide
    id_of_mem := by decide }
  inputs := []
  expected := ["2"]
  limits := .standard
  observer := .silent

/-- Two, three and one steps can be interleaved in sixty ways. -/
theorem explore_paced_raceAndPrint :
    raceAndPrint.diagram.Paced [] (fun i => [2, 3, 1].getD i 0) ∧
      ∃ fuel report, raceAndPrint.explore fuel = some report ∧ report.total = 60 ∧
        report.maxSteps = 6 ∧ report.truncated = 0 ∧ report.interrupted = false := by
  have hpaced : raceAndPrint.diagram.Paced [] (fun i => [2, 3, 1].getD i 0) :=
    Diagram.paced_of_orders (by decide +kernel)
  obtain ⟨⟨fuel, report, hreport⟩, hall⟩ :=
    explore_paced raceAndPrint (by decide) Observer.quiet_silent rfl rfl hpaced
  obtain ⟨htotal, hmax, htruncated, hinterrupted, -⟩ := hall fuel report hreport
  exact ⟨hpaced, fuel, report, hreport, htotal, hmax, htruncated, hinterrupted⟩

end Task

end Flowchart
