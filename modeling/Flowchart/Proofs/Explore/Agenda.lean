import Flowchart.Explore.Search
import Flowchart.Proofs.Explore.Counting
import Flowchart.Proofs.Schedule
import Mathlib.Data.List.Perm.Subperm
import Mathlib.Data.List.Shortlex

/-!
# The agenda of a search

A search is a queue of states, and a state is what an order leads to, so all that a
search does can be told on orders. Its agenda is two lists of them: the ones that
have been expanded and the ones that wait.

The agenda only ever changes in one way: the first order that waits is done, and its
extensions that are still open join the end. Everything else follows. Done and
waiting orders together are in shortlex order, so none occurs twice
(`Agenda.pairwise`, `Agenda.nodup`), and whatever is open and not longer than all
that waits is on the agenda (`Agenda.mem_of_length_le`): the search leaves nothing
out on its way.
-/

namespace Flowchart.Task

/-! ## Orders as the search sees them -/

/-- Whether no thread runs after an order. -/
def ends (task : Task) (order : List Nat) : Bool :=
  (task.diagram.replay task.inputs order).machine.isOver

/-- Whether an order prints what is expected. -/
def meets (task : Task) (order : List Nat) : Bool :=
  (task.diagram.replay task.inputs order).output = task.expected

/-- Whether no thread has failed after an order. -/
def clean (task : Task) (order : List Nat) : Bool :=
  (task.diagram.replay task.inputs order).machine.isClean

/-- An order with one more step of each thread that runs after it. -/
def extensions (task : Task) (order : List Nat) : List (List Nat) :=
  (task.diagram.runningAfter task.inputs order).map fun thread => order ++ [thread]

/-- The extensions that are neither at their end nor given up. -/
def opened (task : Task) (order : List Nat) : List (List Nat) :=
  (task.extensions order).filter fun longer =>
    !task.ends longer && !task.limits.cuts longer.length

/-- An order that the search has to expand. The empty one is expanded under any
limit. -/
structure Open (task : Task) (order : List Nat) : Prop where
  live : task.diagram.Live task.inputs order
  uncut : order = [] ∨ task.limits.cuts order.length = false

variable {task : Task} {order longer : List Nat}

theorem mem_extensions :
    longer ∈ task.extensions order ↔
      ∃ thread, longer = order ++ [thread] ∧
        (task.diagram.replay task.inputs order).machine.isRunning thread = true := by
  unfold extensions
  rw [List.mem_map]
  constructor
  · rintro ⟨thread, hmem, rfl⟩
    exact ⟨thread, rfl, Diagram.mem_runningAfter.mp hmem⟩
  · rintro ⟨thread, rfl, hrun⟩
    exact ⟨thread, Diagram.mem_runningAfter.mpr hrun, rfl⟩

theorem length_of_mem_extensions (h : longer ∈ task.extensions order) :
    longer.length = order.length + 1 := by
  obtain ⟨thread, rfl, _⟩ := mem_extensions.mp h
  simp

theorem mem_opened :
    longer ∈ task.opened order ↔
      longer ∈ task.extensions order ∧ task.ends longer = false ∧
        task.limits.cuts longer.length = false := by
  unfold opened
  rw [List.mem_filter, Bool.and_eq_true, Bool.not_eq_true', Bool.not_eq_true']

/-- A limit that gives up an order gives up all longer ones. -/
theorem cuts_mono {limits : Limits} {m n : Nat} (h : m ≤ n) (hn : limits.cuts n = false) :
    limits.cuts m = false := by
  unfold Limits.cuts at hn ⊢
  cases hmax : limits.maxSteps with
  | none => rfl
  | some max =>
      rw [hmax] at hn
      simp only [Option.any_some, decide_eq_false_iff_not] at hn ⊢
      omega

theorem schedule_of_mem_extensions (ho : task.diagram.Schedule task.inputs order)
    (h : longer ∈ task.extensions order) : task.diagram.Schedule task.inputs longer := by
  obtain ⟨thread, rfl, hrun⟩ := mem_extensions.mp h
  exact ho.snoc hrun

theorem Open.of_mem_opened (ho : task.Open order) (h : longer ∈ task.opened order) :
    task.Open longer := by
  obtain ⟨hext, hends, hcut⟩ := mem_opened.mp h
  exact ⟨⟨schedule_of_mem_extensions ho.live.schedule hext, hends⟩, .inr hcut⟩

/-- Open orders stay below the length limit. A limit of zero acts like one. -/
theorem Open.length_lt {limit : Nat} (hl : task.limits.maxSteps = some limit)
    (ho : task.Open order) : order.length < max limit 1 := by
  rcases ho.uncut with rfl | hcut
  · simp
  · simp only [Limits.cuts, hl, Option.any_some, decide_eq_false_iff_not] at hcut
    omega

/-- One step after an open order, what is given up is as long as the limit. -/
theorem Open.cuts_iff (hl : ∀ limit, task.limits.maxSteps = some limit → 1 ≤ limit)
    (ho : task.Open order) (h : longer ∈ task.extensions order) :
    task.limits.cuts longer.length = true ↔ task.limits.maxSteps = some longer.length := by
  unfold Limits.cuts
  cases hmax : task.limits.maxSteps with
  | none => simp
  | some limit =>
      rw [Option.any_some, decide_eq_true_eq, Option.some.injEq]
      have hlt := ho.length_lt hmax
      have hlen := length_of_mem_extensions h
      have hpos := hl limit hmax
      omega

/-- Before its last step an open order is open, and opens up to it. -/
theorem Open.mem_opened {thread : Nat} (h : task.Open (order ++ [thread])) :
    task.Open order ∧ order ++ [thread] ∈ task.opened order := by
  have hcut : task.limits.cuts (order ++ [thread]).length = false :=
    h.uncut.resolve_left (by simp)
  obtain ⟨_, hrun⟩ := h.live.schedule.of_snoc
  refine ⟨⟨h.live.schedule.live_of_snoc, .inr (cuts_mono (by simp) hcut)⟩, ?_⟩
  exact Task.mem_opened.mpr ⟨mem_extensions.mpr ⟨thread, rfl, hrun⟩, h.live.goesOn, hcut⟩

/-- The orders that a search comes to expand if nothing ends it. -/
inductive Reached (task : Task) : List Nat → Prop where
  | nil : Reached task []
  | snoc {order longer : List Nat} :
      Reached task order → longer ∈ task.opened order → Reached task longer

theorem Reached.isOpen (hd : task.diagram.threads ≠ []) (h : task.Reached order) :
    task.Open order := by
  induction h with
  | nil => exact ⟨Diagram.live_nil hd, .inl rfl⟩
  | snoc _ hopened ih => exact ih.of_mem_opened hopened

theorem Reached.schedule (h : task.Reached order) :
    task.diagram.Schedule task.inputs order := by
  induction h with
  | nil => exact .nil
  | snoc _ hopened ih => exact schedule_of_mem_extensions ih (mem_opened.mp hopened).1

/-- Reached orders stay below the length limit too, even if there are no threads. -/
theorem Reached.length_lt {limit : Nat} (hl : task.limits.maxSteps = some limit)
    (h : task.Reached order) : order.length < max limit 1 := by
  cases h with
  | nil => simp
  | snoc _ hopened =>
      have hcut := (mem_opened.mp hopened).2.2
      simp only [Limits.cuts, hl, Option.any_some, decide_eq_false_iff_not] at hcut
      omega

/-! ## The agenda -/

/-- The orders that a search has expanded, in turn, and those that wait to be. -/
inductive Agenda (task : Task) : (done waiting : List (List Nat)) → Prop where
  | start : Agenda task [] [[]]
  | expand {done waiting : List (List Nat)} {order : List Nat} :
      Agenda task done (order :: waiting) →
      Agenda task (done ++ [order]) (waiting ++ task.opened order)

namespace Agenda

variable {done waiting : List (List Nat)}

/-- The agenda holds the empty order and whatever the done orders opened up to. -/
theorem append_eq (h : task.Agenda done waiting) :
    done ++ waiting = [] :: done.flatMap task.opened := by
  induction h with
  | start => rfl
  | @expand done waiting order _ ih =>
      rw [List.append_assoc, List.singleton_append, ← List.cons_append, ← List.append_assoc, ih,
        List.cons_append, List.flatMap_append]
      simp

theorem mem_iff (h : task.Agenda done waiting) :
    order ∈ done ++ waiting ↔ order = [] ∨ ∃ before ∈ done, order ∈ task.opened before := by
  rw [h.append_eq, List.mem_cons, List.mem_flatMap]

/-- Only what is reached is on the agenda. -/
theorem reached (h : task.Agenda done waiting) : ∀ order ∈ done ++ waiting, task.Reached order := by
  induction h with
  | start =>
      intro order hmem
      rw [List.nil_append, List.mem_singleton] at hmem
      exact hmem ▸ .nil
  | @expand done waiting order _ ih =>
      intro other hmem
      rw [List.append_assoc, List.singleton_append, ← List.cons_append, ← List.append_assoc] at hmem
      -- what is new on the agenda was opened by the order that was done
      rcases List.mem_append.mp hmem with hmem | hmem
      · exact ih other hmem
      · exact (ih order (by simp)).snoc hmem

/-- Only open orders are on the agenda. -/
theorem isOpen (hd : task.diagram.threads ≠ []) (h : task.Agenda done waiting) :
    ∀ order ∈ done ++ waiting, task.Open order :=
  fun order hmem => (h.reached order hmem).isOpen hd

/-- When nothing waits any more, whatever is reached is done. -/
theorem mem_done_iff_reached (h : task.Agenda done []) : order ∈ done ↔ task.Reached order := by
  refine ⟨fun hmem => h.reached order (List.mem_append_left _ hmem), fun hreached => ?_⟩
  rw [← List.append_nil done]
  induction hreached with
  | nil => exact h.mem_iff.mpr (.inl rfl)
  | @snoc before longer _ hopened ih =>
      rw [List.append_nil] at ih
      exact h.mem_iff.mpr (.inr ⟨before, ih, hopened⟩)

/-- An open order that is not longer than any that waits is on the agenda. -/
theorem mem_of_length_le (h : task.Agenda done waiting) (ho : task.Open order)
    (hw : ∀ other ∈ waiting, order.length ≤ other.length) : order ∈ done ++ waiting := by
  induction order using List.reverseRecOn with
  | nil => exact h.mem_iff.mpr (.inl rfl)
  | append_singleton before thread ih =>
      obtain ⟨hbefore, hopened⟩ := ho.mem_opened
      -- without its last step the order is too short to wait, so it is done
      have hshort : ∀ other ∈ waiting, before.length < other.length := by
        intro other hmem
        have hle := hw other hmem
        rw [List.length_append, List.length_singleton] at hle
        omega
      have hmem := ih hbefore fun other hother => Nat.le_of_lt (hshort other hother)
      rcases List.mem_append.mp hmem with hdone | hwaits
      · exact h.mem_iff.mpr (.inr ⟨before, hdone, hopened⟩)
      · exact absurd (hshort before hwaits) (Nat.lt_irrefl _)

/-! ## In shortlex order -/

/-- Shorter orders come first, and of two orders of one length the one that steps the
thread with the lower number. -/
abbrev Before : List Nat → List Nat → Prop :=
  List.Shortlex (· < ·)

theorem lex_append {a b : List Nat} (h : List.Lex (· < ·) a b) (hlen : a.length = b.length)
    (s t : List Nat) : List.Lex (· < ·) (a ++ s) (b ++ t) := by
  induction h with
  | nil => exact absurd hlen (by simp)
  | rel hlt => exact .rel hlt
  | cons _ ih => exact .cons (ih (by simpa using hlen))

/-- One more step on either side keeps the order of two orders. -/
theorem before_snoc {a b : List Nat} (h : Before a b) (s t : Nat) :
    Before (a ++ [s]) (b ++ [t]) := by
  rcases List.shortlex_def.mp h with hlt | ⟨heq, hlex⟩
  · exact .of_length_lt (by simpa using hlt)
  · exact .of_lex (by simpa using heq) (lex_append hlex heq _ _)

theorem pairwise_opened (task : Task) (order : List Nat) :
    (task.opened order).Pairwise Before := by
  unfold opened extensions
  refine List.Pairwise.filter _ (List.pairwise_map.mpr ?_)
  refine (Diagram.pairwise_runningAfter task.diagram task.inputs order).imp ?_
  intro _ _ hlt
  exact List.Shortlex.append_left ((List.shortlex_singleton_iff _ _).mpr hlt) order

/-- Done and waiting orders together are in shortlex order. -/
theorem pairwise (h : task.Agenda done waiting) : (done ++ waiting).Pairwise Before := by
  induction h with
  | start => exact List.pairwise_singleton _ _
  | @expand done waiting order h ih =>
      rw [List.append_assoc, List.singleton_append, ← List.cons_append, ← List.append_assoc]
      refine List.pairwise_append.mpr ⟨ih, pairwise_opened task order, ?_⟩
      intro other hother longer hlonger
      obtain ⟨thread, rfl, -⟩ := mem_extensions.mp (mem_opened.mp hlonger).1
      rcases h.mem_iff.mp hother with rfl | ⟨parent, hparent, hopened⟩
      · exact .of_length_lt (by simp)
      · -- the parent was done before `order`, and both grew by one step
        obtain ⟨last, rfl, -⟩ := mem_extensions.mp (mem_opened.mp hopened).1
        exact before_snoc ((List.pairwise_append.mp ih).2.2 parent hparent order (by simp)) _ _

/-- How much is done determines what is done and what waits. -/
theorem eq_of_length {done' waiting' : List (List Nat)} (h : task.Agenda done waiting)
    (h' : task.Agenda done' waiting') (hlen : done.length = done'.length) :
    done = done' ∧ waiting = waiting' := by
  induction h generalizing done' waiting' with
  | start =>
      cases h' with
      | start => exact ⟨rfl, rfl⟩
      | expand _ => exact absurd hlen (by simp)
  | @expand done waiting order h ih =>
      cases h' with
      | start => exact absurd hlen (by simp)
      | @expand done' waiting' order' h' =>
          obtain ⟨rfl, heq⟩ := ih h' (by simpa using hlen)
          obtain ⟨rfl, rfl⟩ := List.cons.inj heq
          exact ⟨rfl, rfl⟩

/-- Of two agendas the one that has done less is the beginning of the other. -/
theorem prefix_of_length_le {done' waiting' : List (List Nat)} (h : task.Agenda done waiting)
    (h' : task.Agenda done' waiting') (hlen : done.length ≤ done'.length) : done <+: done' := by
  induction h' with
  | start =>
      obtain rfl := List.length_eq_zero_iff.mp (Nat.le_zero.mp hlen)
      exact List.prefix_rfl
  | @expand done' waiting' order h' ih =>
      by_cases hshort : done.length ≤ done'.length
      · exact (ih hshort).trans (List.prefix_append _ _)
      · rw [List.length_append, List.length_singleton] at hlen
        have hsame : done.length = (done' ++ [order]).length := by
          rw [List.length_append, List.length_singleton]
          omega
        obtain ⟨rfl, -⟩ := h.eq_of_length (.expand h') hsame
        exact List.prefix_rfl

/-- An agenda at its end has done all that any other has done. -/
theorem length_le_of_ended {done' waiting' : List (List Nat)} (h : task.Agenda done [])
    (h' : task.Agenda done' waiting') : done'.length ≤ done.length := by
  induction h' with
  | start => exact Nat.zero_le _
  | @expand done' waiting' order h' ih =>
      have hne : done'.length ≠ done.length := by
        intro hlen
        obtain ⟨-, hwaiting⟩ := h'.eq_of_length h hlen
        exact absurd hwaiting (by simp)
      rw [List.length_append, List.length_singleton]
      omega

/-- The agenda depends on nothing but what each order opens up to. -/
theorem of_opened_eq {task' : Task} (hopened : ∀ order, task'.opened order = task.opened order)
    (h : task.Agenda done waiting) : task'.Agenda done waiting := by
  induction h with
  | start => exact .start
  | @expand done waiting order _ ih =>
      rw [← hopened]
      exact .expand ih

theorem nodup (h : task.Agenda done waiting) : (done ++ waiting).Nodup := by
  refine h.pairwise.imp ?_
  intro _ _ hbefore heq
  subst heq
  exact Std.Irrefl.irrefl _ hbefore

/-- What waits is at least as long as what is done. -/
theorem length_le_of_done (h : task.Agenda done waiting) {before : List Nat}
    (hbefore : before ∈ done) : ∀ other ∈ waiting, before.length ≤ other.length := by
  intro other hother
  have hlt := (List.pairwise_append.mp h.pairwise).2.2 before hbefore other hother
  rcases List.shortlex_def.mp hlt with hlen | ⟨hlen, -⟩
  · exact Nat.le_of_lt hlen
  · exact Nat.le_of_eq hlen

/-- Every open order that is not longer than a done one is done, unless it is as long
and waits. -/
theorem mem_done_of_length_lt (h : task.Agenda done waiting) (ho : task.Open order)
    {before : List Nat} (hbefore : before ∈ done) (hlen : order.length < before.length) :
    order ∈ done := by
  have hle := h.length_le_of_done hbefore
  have hmem := h.mem_of_length_le ho fun other hother =>
    Nat.le_trans (Nat.le_of_lt hlen) (hle other hother)
  rcases List.mem_append.mp hmem with hdone | hwaits
  · exact hdone
  · exact absurd (hle order hwaits) (by omega)

/-- When nothing waits any more, every open order is done. -/
theorem mem_done_iff (hd : task.diagram.threads ≠ []) (h : task.Agenda done []) :
    order ∈ done ↔ task.Open order := by
  constructor
  · exact fun hmem => h.isOpen hd order (List.mem_append_left _ hmem)
  · intro ho
    have hmem := h.mem_of_length_le ho (by simp)
    rwa [List.append_nil] at hmem

/-! ## Short orders are finitely many -/

/-- All orders of a length over so many threads. -/
def orders (threads : Nat) : Nat → List (List Nat)
  | 0 => [[]]
  | n + 1 => (orders threads n).flatMap fun order =>
      (List.range threads).map fun thread => order ++ [thread]

theorem length_orders (threads n : Nat) : (orders threads n).length = threads ^ n := by
  induction n with
  | zero => rfl
  | succ n ih => simp [orders, List.length_flatMap, ih, Nat.pow_succ]

theorem mem_orders {threads : Nat} (h : ∀ thread ∈ order, thread < threads) :
    order ∈ orders threads order.length := by
  induction order using List.reverseRecOn with
  | nil => simp [orders]
  | append_singleton before thread ih =>
      rw [List.length_append, List.length_singleton, orders, List.mem_flatMap]
      refine ⟨before, ih fun other hmem => h other (by simp [hmem]), ?_⟩
      exact List.mem_map.mpr ⟨thread, List.mem_range.mpr (h thread (by simp)), rfl⟩

/-- All orders that are shorter than a length. -/
def ordersBelow (threads length : Nat) : List (List Nat) :=
  (List.range length).flatMap (orders threads)

theorem length_ordersBelow (threads length : Nat) :
    (ordersBelow threads length).length
      = ((List.range length).map fun n => threads ^ n).sum := by
  simp [ordersBelow, List.length_flatMap, length_orders]

/-- When the reached orders are shorter than some length, there are only so many to
expand. -/
theorem length_done_le_of_reached (h : task.Agenda done waiting) {length : Nat}
    (hlength : ∀ order, task.Reached order → order.length < length) :
    done.length ≤ ((List.range length).map fun n => task.diagram.threads.length ^ n).sum := by
  rw [← length_ordersBelow]
  refine (List.subperm_of_subset (List.nodup_append.mp h.nodup).1 fun order hmem => ?_).length_le
  have hreached := h.reached order (List.mem_append_left _ hmem)
  refine List.mem_flatMap.mpr ⟨order.length, ?_, mem_orders hreached.schedule.lt⟩
  exact List.mem_range.mpr (hlength order hreached)

theorem length_done_le (hd : task.diagram.threads ≠ []) (h : task.Agenda done waiting)
    {length : Nat} (hlength : ∀ order, task.Open order → order.length < length) :
    done.length ≤ ((List.range length).map fun n => task.diagram.threads.length ^ n).sum :=
  h.length_done_le_of_reached fun order hreached => hlength order (hreached.isOpen hd)

end Agenda

end Flowchart.Task
