import Flowchart.Proofs.Explore.Agenda
import Flowchart.Proofs.Explore.Aggregation
import Mathlib.Data.Set.Card

/-!
# The score of a list of orders

Visiting an order either records a run, or records that the order is given up, or
leaves the tally alone. The tally of a whole list of orders is therefore that of the runs
among them (`tally_eq`), and so a row of counts (`total_tally` to `rateUpTo_tally`). Over a
list without repetition these counts are the sizes of sets (`ncard_eq_countP`).
-/

namespace Flowchart.Task

variable {task : Task} {orders : List (List Nat)}

/-- The tally once an order has been visited. -/
def score (task : Task) (t : Tally) (order : List Nat) : Tally :=
  if task.ends order then t.record order.length (task.meets order) (task.clean order)
  else if task.limits.cuts order.length then t.recordCut
  else t

/-- The tally once the orders of a list have been visited. -/
def tally (task : Task) (orders : List (List Nat)) : Tally :=
  orders.foldl task.score .empty

theorem tally_snoc (task : Task) (orders : List (List Nat)) (order : List Nat) :
    task.tally (orders ++ [order]) = task.score (task.tally orders) order := by
  simp [tally, List.foldl_append]

/-- Visiting an order that is an end records a run. -/
theorem score_of_ends {order : List Nat} (t : Tally) (h : task.ends order = true) :
    task.score t order = t.record order.length (task.meets order) (task.clean order) := by
  rw [score, if_pos h]

/-- Visiting any other order leaves the runs alone. -/
theorem score_of_not_ends {order : List Nat} (t : Tally) (h : task.ends order = false) :
    task.score t order
      = { t with truncated := t.truncated + (task.limits.cuts order.length).toNat } := by
  rw [score, if_neg (by simp [h])]
  cases hcut : task.limits.cuts order.length <;> rfl

/-- It makes no difference which of two orders is visited first. -/
theorem score_comm (task : Task) (t : Tally) (a b : List Nat) :
    task.score (task.score t a) b = task.score (task.score t b) a := by
  cases ha : task.ends a <;> cases hb : task.ends b
  · simp only [score_of_not_ends _ ha, score_of_not_ends _ hb, Nat.add_right_comm]
  · simp only [score_of_not_ends _ ha, score_of_ends _ hb, Tally.record]
  · simp only [score_of_ends _ ha, score_of_not_ends _ hb, Tally.record]
  · simp only [score_of_ends _ ha, score_of_ends _ hb, Tally.record_comm]

/-- A tally does not depend on the order in which the orders were visited. -/
theorem tally_perm {orders' : List (List Nat)} (h : orders.Perm orders') :
    task.tally orders = task.tally orders' :=
  h.foldl_eq' (fun a _ b _ t => task.score_comm t a b) .empty

/-- The runs among some orders, as they are recorded. -/
def recorded (task : Task) (orders : List (List Nat)) : List Run :=
  (orders.filter task.ends).map fun order => ⟨order.length, task.meets order, task.clean order⟩

/-- What is not an end leaves no trace but the number of orders that were given up. -/
theorem tally_eq (task : Task) (orders : List (List Nat)) :
    task.tally orders = { Tally.ofRuns (task.recorded orders) with
      truncated := orders.countP fun order => !task.ends order && task.limits.cuts order.length } := by
  induction orders using List.reverseRecOn with
  | nil => rfl
  | append_singleton orders order ih =>
      rw [tally_snoc, ih, recorded, recorded, List.filter_append, List.map_append,
        List.countP_append, List.countP_singleton]
      cases h : task.ends order with
      | true =>
          rw [score_of_ends _ h, List.filter_singleton, h, cond_true, List.map_singleton,
            Tally.ofRuns_snoc]
          rfl
      | false =>
          rw [score_of_not_ends _ h, List.filter_singleton, h, cond_false, List.map_nil,
            List.append_nil]
          cases task.limits.cuts order.length <;> rfl

theorem countP_recorded (test : Run → Bool) (task : Task) (orders : List (List Nat)) :
    (task.recorded orders).countP test = orders.countP fun order =>
      task.ends order && test ⟨order.length, task.meets order, task.clean order⟩ := by
  rw [recorded, List.countP_map, List.countP_filter]
  simp only [Function.comp_apply, Bool.and_comm]

theorem one_le_steps_recorded (horders : ∀ order ∈ orders, order ≠ []) :
    ∀ run ∈ task.recorded orders, 1 ≤ run.steps := by
  intro run hmem
  obtain ⟨order, horder, rfl⟩ := List.mem_map.mp hmem
  exact List.length_pos_iff.mpr (horders order (List.mem_of_mem_filter horder))

/-- The run of an order that is an end. -/
theorem mem_recorded {order : List Nat} (h : order ∈ orders) (hends : task.ends order = true) :
    ⟨order.length, task.meets order, task.clean order⟩ ∈ task.recorded orders :=
  List.mem_map_of_mem (List.mem_filter.mpr ⟨h, hends⟩)

theorem length_recorded (task : Task) (orders : List (List Nat)) :
    (task.recorded orders).length = orders.countP task.ends := by
  rw [recorded, List.length_map, List.countP_eq_length_filter]

theorem total_tally (task : Task) (orders : List (List Nat)) :
    (task.tally orders).total = orders.countP task.ends := by
  rw [tally_eq]
  show (Tally.ofRuns (task.recorded orders)).total = _
  rw [Tally.total_ofRuns, length_recorded]

theorem completed_tally (task : Task) (orders : List (List Nat)) :
    (task.tally orders).completed
      = orders.countP fun order => task.ends order && task.clean order := by
  rw [tally_eq]
  show (Tally.ofRuns (task.recorded orders)).completed = _
  rw [Tally.completed_ofRuns, countP_recorded]

theorem truncated_tally (task : Task) (orders : List (List Nat)) :
    (task.tally orders).truncated
      = orders.countP fun order => !task.ends order && task.limits.cuts order.length := by
  rw [tally_eq]

/-- For each number of steps the tally counts the runs of at most so many steps. -/
theorem rateUpTo_tally (horders : ∀ order ∈ orders, order ≠ []) (k : Nat) :
    (task.tally orders).rateUpTo k =
      ⟨orders.countP fun order => task.ends order && decide (order.length ≤ k) && task.meets order,
        orders.countP fun order => task.ends order && decide (order.length ≤ k)⟩ := by
  rw [tally_eq]
  show (Tally.ofRuns (task.recorded orders)).rateUpTo k = _
  rw [Tally.rateUpTo_ofRuns (one_le_steps_recorded horders), countP_recorded, countP_recorded]
  simp only [Bool.and_assoc]

theorem maxSteps_tally (task : Task) (orders : List (List Nat)) :
    (task.tally orders).maxSteps = (Tally.ofRuns (task.recorded orders)).maxSteps := by
  rw [tally_eq]
  rfl

/-- No run of the tally is longer than its greatest length. -/
theorem length_le_maxSteps_tally {order : List Nat} (h : order ∈ orders)
    (hends : task.ends order = true) : order.length ≤ (task.tally orders).maxSteps := by
  rw [maxSteps_tally]
  exact Tally.steps_le_maxSteps_ofRuns (mem_recorded h hends)

/-- The greatest length is that of some run. -/
theorem exists_of_maxSteps_tally (h : (task.tally orders).maxSteps ≠ 0) :
    ∃ order ∈ orders, task.ends order = true ∧
      order.length = (task.tally orders).maxSteps := by
  rw [maxSteps_tally] at h ⊢
  have hne : task.recorded orders ≠ [] := by
    intro hnil
    rw [hnil] at h
    exact h rfl
  obtain ⟨run, hmem, hrun⟩ := Tally.exists_of_maxSteps_ofRuns hne
  obtain ⟨order, horder, rfl⟩ := List.mem_map.mp hmem
  obtain ⟨horder, hends⟩ := List.mem_filter.mp horder
  exact ⟨order, horder, hends, hrun⟩

/-- Once there is a run, the overall rate is over all of them. -/
theorem overall?_tally (horders : ∀ order ∈ orders, order ≠ []) {order : List Nat}
    (h : order ∈ orders) (hends : task.ends order = true) (interrupted : Bool) :
    ((task.tally orders).report interrupted).overall? =
      some ⟨orders.countP fun order => task.ends order && task.meets order,
        orders.countP task.ends⟩ := by
  have hrates : (task.tally orders).rates = (Tally.ofRuns (task.recorded orders)).rates :=
    Tally.rates_congr (by rw [tally_eq])
  have hoverall := Tally.overall?_ofRuns (one_le_steps_recorded horders)
    (List.ne_nil_of_mem (mem_recorded h hends)) interrupted
  rw [countP_recorded, length_recorded] at hoverall
  rw [← hoverall]
  show (task.tally orders).rates.get? (task.tally orders).maxSteps = _
  rw [hrates, maxSteps_tally]
  rfl

/-- As many items pass both tests as pass the first exactly if the second excludes none
of these. -/
theorem countP_and_eq_countP {α : Type} (p q : α → Bool) (items : List α) :
    (items.countP fun item => p item && q item) = items.countP p ↔
      ∀ item ∈ items, p item = true → q item = true := by
  simp only [Bool.and_comm (p _)]
  rw [← List.countP_filter, List.countP_eq_length_filter (p := p), List.countP_eq_length]
  simp only [List.mem_filter, and_imp]

/-- Over a list without repetition a count is the size of a set. -/
theorem ncard_eq_countP {set : Set (List Nat)} {test : List Nat → Bool} (hn : orders.Nodup)
    (h : ∀ order, order ∈ set ↔ order ∈ orders ∧ test order = true) :
    set.Finite ∧ orders.countP test = set.ncard := by
  have hset : set = ((orders.filter test).toFinset : Set (List Nat)) := by
    ext order
    rw [h order, List.coe_toFinset, Set.mem_ofPred_eq, List.mem_filter]
  constructor
  · rw [hset]
    exact Finset.finite_toSet _
  · rw [hset, Set.ncard_coe_finset, List.toFinset_card_of_nodup (hn.filter test),
      List.countP_eq_length_filter]

/-! ## What an agenda has found out -/

/-- What is known once the orders of a list have been expanded. -/
def findings (task : Task) (done : List (List Nat)) : Tally :=
  task.tally (done.flatMap task.extensions)

theorem ne_nil_of_mem_extensions {order longer : List Nat} (h : longer ∈ task.extensions order) :
    longer ≠ [] := by
  intro heq
  have hlen := length_of_mem_extensions h
  rw [heq] at hlen
  exact absurd hlen (by simp)

/-- No extension is visited twice. -/
theorem Agenda.nodup_extensions {done waiting : List (List Nat)}
    (h : task.Agenda done waiting) : (done.flatMap task.extensions).Nodup := by
  refine List.nodup_flatMap.mpr ⟨?_, ?_⟩
  · intro order _
    refine (Diagram.pairwise_runningAfter task.diagram task.inputs order).nodup.map ?_
    intro a b heq
    simpa using heq
  · refine (List.nodup_append.mp h.nodup).1.imp fun {a b} hne longer hleft hright => ?_
    obtain ⟨_, rfl, -⟩ := mem_extensions.mp hleft
    obtain ⟨_, heq, -⟩ := mem_extensions.mp hright
    exact hne (List.append_singleton_inj.mp heq).1

end Flowchart.Task
