import Flowchart.Proofs.Assembly
import Flowchart.Proofs.Explore.Independence
import Mathlib.Logic.Equiv.Basic

/-!
# Threads under other numbers

A diagram lists its threads in some order, and a search calls them by their places in it. In
another order of the list each thread has a new number. A replay of the new numbers leads
to the same place (`renumbers_replay`): a step under another number is the same step, and
what is asked of a place is asked of all its threads. So two searches over the same threads
under other numbers see the same orders, up to the numbers, although not one after the
other in the same way.

What a search has found out does not depend on the order in which it has found it
(`tally_perm`). Hence the searches report the same (`explore_reordered`), and the one ends
if the other does, since they have the same orders to expand.
-/

namespace Flowchart

/-! ## New numbers for the places of a list -/

section Places

variable {α : Type} [DecidableEq α] {l l' : List α}

/-- The place that an entry has in a permutation of its list. What is no place keeps its
number. -/
def renumber (h : l.Perm l') (i : Nat) : Nat :=
  if hi : i < l.length then h.idxBij ⟨i, hi⟩ else i

theorem getElem?_renumber (h : l.Perm l') (i : Nat) : l'[renumber h i]? = l[i]? := by
  unfold renumber
  split
  · next hi =>
    rw [List.getElem?_eq_getElem hi, List.getElem?_eq_getElem (Fin.isLt _)]
    exact congrArg some (h.getElem_idxBij_eq_getElem ⟨i, hi⟩)
  · next hi =>
    rw [List.getElem?_eq_none (Nat.not_lt.mp hi),
      List.getElem?_eq_none (h.length_eq ▸ Nat.not_lt.mp hi)]

theorem renumber_renumber (h : l.Perm l') (i : Nat) : renumber h.symm (renumber h i) = i := by
  unfold renumber
  by_cases hi : i < l.length
  · rw [dif_pos hi, dif_pos (Fin.isLt _)]
    exact congrArg Fin.val (h.symm.idxBij_leftInverse_idxBij_symm ⟨i, hi⟩)
  · rw [dif_neg hi, dif_neg (h.length_eq ▸ hi)]

/-- The places of a permutation as new numbers for the places of the list. -/
def renumbering (h : l.Perm l') : Equiv.Perm Nat :=
  ⟨renumber h, renumber h.symm, renumber_renumber h, renumber_renumber h.symm⟩

end Places

/-! ## Diagrams in another order -/

/-- The same variables, blocks and threads, in any order. -/
structure Diagram.Reorders (d d' : Diagram) : Prop where
  declared : d.declared.Perm d'.declared
  blocks : d.blockList.Perm d'.blockList
  threads : d.threads.Perm d'.threads

/-- What the order of its parts makes of a diagram: its threads have new numbers, and
nothing else. -/
structure Diagram.Renumbers (d d' : Diagram) (σ : Equiv.Perm Nat) : Prop where
  initial : Environment.initial d'.declared = Environment.initial d.declared
  block? : ∀ id, d'.block? id = d.block? id
  threads : ∀ i, d'.threads[σ i]? = d.threads[i]?

namespace Diagram

variable {d d' : Diagram} {σ : Equiv.Perm Nat}

theorem Reorders.exists_renumbers (h : d.Reorders d') : ∃ σ, d.Renumbers d' σ := by
  refine ⟨renumbering h.threads, ?_, fun id => Option.ext fun block => ?_,
    getElem?_renumber h.threads⟩
  · exact (Environment.initial_perm d.names_nodup h.declared).symm
  · rw [block?_eq_some_iff, block?_eq_some_iff, h.blocks.mem_iff]

theorem Renumbers.symm (h : d.Renumbers d' σ) : d'.Renumbers d σ.symm := by
  refine ⟨h.initial.symm, fun id => (h.block? id).symm, fun i => ?_⟩
  have hthread := h.threads (σ.symm i)
  rw [σ.apply_symm_apply] at hthread
  exact hthread.symm

theorem Renumbers.scripted (h : d.Renumbers d' σ) (id : BlockId) (env : Environment)
    (script : Script) : d'.scripted id env script = d.scripted id env script := by
  unfold Diagram.scripted Diagram.step Diagram.block
  rw [h.block? id]

end Diagram

/-! ## Replays -/

/-- The threads of the second place stand where those of the first stand, each under its new
number. -/
structure Replay.Renumbers (σ : Equiv.Perm Nat) (r r' : Replay) : Prop where
  env : r'.machine.env = r.machine.env
  script : r'.script = r.script
  cursors : ∀ i, r'.machine.cursors[σ i]? = r.machine.cursors[i]?

namespace Replay

variable {d d' : Diagram} {σ : Equiv.Perm Nat} {r r' : Replay}

theorem Renumbers.isRunning (h : r.Renumbers σ r') (i : Nat) :
    r'.machine.isRunning (σ i) = r.machine.isRunning i := by
  rw [Machine.isRunning, h.cursors, Machine.isRunning]

theorem Renumbers.mem_cursors (h : r.Renumbers σ r') {c : Cursor} :
    c ∈ r'.machine.cursors ↔ c ∈ r.machine.cursors := by
  rw [List.mem_iff_getElem?, List.mem_iff_getElem?]
  constructor
  · rintro ⟨i, hi⟩
    refine ⟨σ.symm i, ?_⟩
    rw [← h.cursors, σ.apply_symm_apply, hi]
  · rintro ⟨i, hi⟩
    exact ⟨σ i, (h.cursors i).trans hi⟩

/-- What is so for all threads does not depend on their numbers. -/
theorem Renumbers.all_cursors (h : r.Renumbers σ r') (test : Cursor → Bool) :
    r'.machine.cursors.all test = r.machine.cursors.all test := by
  rw [Bool.eq_iff_iff, List.all_eq_true, List.all_eq_true]
  simp only [h.mem_cursors]

theorem renumbers_start (h : d.Renumbers d' σ) (inputs : List String) :
    (start d inputs).Renumbers σ (start d' inputs) := by
  refine ⟨h.initial, rfl, fun i => ?_⟩
  show (d'.threads.map Cursor.start)[σ i]? = (d.threads.map Cursor.start)[i]?
  rw [List.getElem?_map, List.getElem?_map, h.threads]

/-- **A step under another number is the same step.** -/
theorem Renumbers.step (hd : d.Renumbers d' σ) (h : r.Renumbers σ r') (i : Nat) :
    (r.step d i).Renumbers σ (r'.step d' (σ i)) := by
  rcases step_cases d r i with ⟨hrun, hstep⟩ | ⟨c, id, hc, hcur, hstep⟩
  · rw [hstep, step_of_not_running ((h.isRunning i).trans hrun)]
    exact h
  · have hc' : r'.machine.cursors[σ i]? = some c := (h.cursors i).trans hc
    have hstep' : r'.step d' (σ i) =
        let result := d'.scripted id r'.machine.env r'.script
        ⟨⟨result.1.2, r'.machine.cursors.set (σ i) ⟨.after result.1.1, c.steps + 1⟩⟩,
          result.2⟩ := step_of_running hc' hcur
    rw [hd.scripted, h.env, h.script] at hstep'
    rw [hstep, hstep']
    refine ⟨rfl, rfl, fun j => ?_⟩
    dsimp only
    by_cases hj : i = j
    · subst hj
      rw [List.getElem?_set_self (List.getElem?_eq_some_iff.mp hc).1,
        List.getElem?_set_self (List.getElem?_eq_some_iff.mp hc').1]
    · rw [List.getElem?_set_ne hj, List.getElem?_set_ne (σ.injective.ne hj), h.cursors]

theorem renumbers_replay (h : d.Renumbers d' σ) (inputs : List String) (order : List Nat) :
    (d.replay inputs order).Renumbers σ (d'.replay inputs (order.map σ)) := by
  induction order using List.reverseRecOn with
  | nil => exact renumbers_start h inputs
  | append_singleton order thread ih =>
      rw [List.map_append, List.map_singleton, Diagram.replay_append_singleton,
        Diagram.replay_append_singleton]
      exact ih.step h thread

end Replay

/-! ## Searches -/

namespace Task

/-- The orders that a search comes to see. -/
def Visits (task : Task) (order : List Nat) : Prop :=
  ∃ before, task.Reached before ∧ order ∈ task.extensions before

theorem Agenda.mem_visited_iff {task : Task} {done : List (List Nat)} {order : List Nat}
    (h : task.Agenda done []) : order ∈ done.flatMap task.extensions ↔ task.Visits order := by
  rw [mem_visited]
  simp only [h.mem_done_iff_reached]
  rfl

/-- The same search over threads under other numbers. -/
structure Renumbers (task task' : Task) (σ : Equiv.Perm Nat) : Prop where
  diagram : task.diagram.Renumbers task'.diagram σ
  inputs : task'.inputs = task.inputs
  expected : task'.expected = task.expected
  limits : task'.limits = task.limits

namespace Renumbers

variable {task task' : Task} {σ : Equiv.Perm Nat} {order longer : List Nat}

theorem symm (h : task.Renumbers task' σ) : task'.Renumbers task σ.symm :=
  ⟨h.diagram.symm, h.inputs.symm, h.expected.symm, h.limits.symm⟩

theorem replay (h : task.Renumbers task' σ) (order : List Nat) :
    (task.diagram.replay task.inputs order).Renumbers σ
      (task'.diagram.replay task'.inputs (order.map σ)) := by
  rw [h.inputs]
  exact Replay.renumbers_replay h.diagram task.inputs order

theorem ends (h : task.Renumbers task' σ) (order : List Nat) :
    task'.ends (order.map σ) = task.ends order :=
  (h.replay order).all_cursors _

theorem clean (h : task.Renumbers task' σ) (order : List Nat) :
    task'.clean (order.map σ) = task.clean order :=
  (h.replay order).all_cursors _

theorem meets (h : task.Renumbers task' σ) (order : List Nat) :
    task'.meets (order.map σ) = task.meets order := by
  unfold Task.meets Replay.output
  rw [(h.replay order).script, h.expected]

theorem score (h : task.Renumbers task' σ) (t : Tally) (order : List Nat) :
    task'.score t (order.map σ) = task.score t order := by
  unfold Task.score
  rw [h.ends, h.meets, h.clean, h.limits, List.length_map]

theorem mem_extensions (h : task.Renumbers task' σ) (hmem : longer ∈ task.extensions order) :
    longer.map σ ∈ task'.extensions (order.map σ) := by
  obtain ⟨thread, rfl, hrun⟩ := Task.mem_extensions.mp hmem
  refine Task.mem_extensions.mpr ⟨σ thread, by simp, ?_⟩
  rw [(h.replay order).isRunning, hrun]

theorem mem_opened (h : task.Renumbers task' σ) (hmem : longer ∈ task.opened order) :
    longer.map σ ∈ task'.opened (order.map σ) := by
  obtain ⟨hext, hends, hcut⟩ := Task.mem_opened.mp hmem
  refine Task.mem_opened.mpr ⟨h.mem_extensions hext, ?_, ?_⟩
  · rw [h.ends, hends]
  · rw [h.limits, List.length_map, hcut]

theorem reached (h : task.Renumbers task' σ) (hreached : task.Reached order) :
    task'.Reached (order.map σ) := by
  induction hreached with
  | nil => exact .nil
  | snoc _ hopened ih => exact ih.snoc (h.mem_opened hopened)

theorem visits (h : task.Renumbers task' σ) (hvisits : task.Visits order) :
    task'.Visits (order.map σ) := by
  obtain ⟨before, hbefore, hext⟩ := hvisits
  exact ⟨before.map σ, h.reached hbefore, h.mem_extensions hext⟩

variable {done done' waiting' : List (List Nat)}

/-- Two searches that are done have seen the same orders, up to the numbers. -/
theorem visited_perm (h : task.Renumbers task' σ) (hdone : task.Agenda done [])
    (hdone' : task'.Agenda done' []) :
    ((done.flatMap task.extensions).map (List.map σ)).Perm (done'.flatMap task'.extensions) := by
  have hnodup : ((done.flatMap task.extensions).map (List.map σ)).Nodup :=
    hdone.nodup_extensions.map (List.map_injective_iff.mpr σ.injective)
  refine (List.perm_ext_iff_of_nodup hnodup hdone'.nodup_extensions).mpr fun order => ?_
  rw [List.mem_map, hdone'.mem_visited_iff]
  simp only [hdone.mem_visited_iff]
  constructor
  · rintro ⟨order, hvisits, rfl⟩
    exact h.visits hvisits
  · exact fun hvisits => ⟨order.map σ.symm, h.symm.visits hvisits, by simp⟩

/-- Two searches that are done have found out the same. -/
theorem findings_eq (h : task.Renumbers task' σ) (hdone : task.Agenda done [])
    (hdone' : task'.Agenda done' []) : task'.findings done' = task.findings done := by
  rw [findings, ← tally_perm (h.visited_perm hdone hdone'), findings, tally, List.foldl_map]
  simp only [h.score]
  rfl

/-- What one of the searches expands, the other one expands, if it comes to its end. -/
theorem length_le (h : task.Renumbers task' σ) (hdone : task.Agenda done [])
    (h' : task'.Agenda done' waiting') : done'.length ≤ done.length := by
  have hnodup : (done'.map (List.map σ.symm)).Nodup :=
    (List.nodup_append.mp h'.nodup).1.map (List.map_injective_iff.mpr σ.symm.injective)
  have hsubset : done'.map (List.map σ.symm) ⊆ done := by
    intro order hmem
    obtain ⟨other, hother, rfl⟩ := List.mem_map.mp hmem
    exact hdone.mem_done_iff_reached.mpr
      (h.symm.reached (h'.reached other (List.mem_append_left _ hother)))
  have hle := (List.subperm_of_subset hnodup hsubset).length_le
  rwa [List.length_map] at hle

end Renumbers

/-- **Reports do not know the numbers of threads.** List the variables, the blocks and the
threads of a diagram in another order. Whenever the search ends that neither its observer
nor a cap on states ends, the search over the other diagram ends, and always with the same
report. -/
theorem explore_reordered (task : Task) (hq : task.observer.Quiet)
    (hstates : task.limits.maxStates = none) {d' : Diagram} (h : task.diagram.Reorders d')
    {fuel : Nat} {report : Report Rate} (hexplore : task.explore fuel = some report) :
    (∃ fuel', ({ task with diagram := d' } : Task).explore fuel' = some report) ∧
      ∀ fuel' report', ({ task with diagram := d' } : Task).explore fuel' = some report' →
        report' = report := by
  obtain ⟨σ, hσ⟩ := h.exists_renumbers
  have hrenumbers : task.Renumbers { task with diagram := d' } σ := ⟨hσ, rfl, rfl, rfl⟩
  obtain ⟨done, hdone, rfl⟩ := agenda_of_explore hq hstates hexplore
  have hsame (fuel' : Nat) (report' : Report Rate)
      (h' : ({ task with diagram := d' } : Task).explore fuel' = some report') :
      report' = (task.findings done).report (decide (0 < (task.findings done).truncated)) := by
    obtain ⟨done', hdone', rfl⟩ := agenda_of_explore (by exact hq) (by exact hstates) h'
    rw [hrenumbers.findings_eq hdone hdone']
  obtain ⟨fuel', report', h'⟩ : ∃ fuel' report',
      ({ task with diagram := d' } : Task).explore fuel' = some report' :=
    exists_explore_of_length_le fun _ _ => hrenumbers.length_le hdone
  exact ⟨⟨fuel', hsame fuel' report' h' ▸ h'⟩, hsame⟩

/-- Three threads, two of them alike, that ask for a line when there is only one. -/
def askThrice (declared : List Variable) (threads : List BlockId)
    (h : (declared.map (·.name)).Nodup) : Diagram where
  declared := declared
  blocks := ⟨[(1, .input 1 2 "x"), (2, .stop 2 none), (3, .input 3 4 "y"),
    (4, .stop 4 (some 5)), (5, .stop 5 none)], by decide⟩
  threads := threads
  names_nodup := h
  id_of_mem := by decide

/-- Some runs are given up after four steps, and in all runs some thread fails. -/
theorem explore_reordered_askThrice :
    ∃ report, (⟨askThrice [⟨"x", .int⟩, ⟨"y", .int⟩] [1, 3, 1] (by decide), ["1"], [],
        ⟨none, some 4, 1⟩, .silent⟩ : Task).explore 40 = some report ∧
      0 < report.total ∧ report.completed = 0 ∧ 0 < report.truncated ∧
      ∃ fuel, (⟨askThrice [⟨"y", .int⟩, ⟨"x", .int⟩] [3, 1, 1] (by decide), ["1"], [],
        ⟨none, some 4, 1⟩, .silent⟩ : Task).explore fuel = some report := by
  have hrun : ((⟨askThrice [⟨"x", .int⟩, ⟨"y", .int⟩] [1, 3, 1] (by decide), ["1"], [],
      ⟨none, some 4, 1⟩, .silent⟩ : Task).explore 40).any (fun report =>
        decide (0 < report.total ∧ report.completed = 0 ∧ 0 < report.truncated)) = true := by
    decide +kernel
  obtain ⟨report, hreport, htest⟩ := (Option.any_eq_true _ _).mp hrun
  obtain ⟨htotal, hcompleted, htruncated⟩ := of_decide_eq_true htest
  have hreorders : (askThrice [⟨"x", .int⟩, ⟨"y", .int⟩] [1, 3, 1] (by decide)).Reorders
      (askThrice [⟨"y", .int⟩, ⟨"x", .int⟩] [3, 1, 1] (by decide)) :=
    ⟨by decide, .refl _, by decide⟩
  exact ⟨report, hreport, htotal, hcompleted, htruncated,
    (explore_reordered _ Observer.quiet_silent rfl hreorders hreport).1⟩

end Task

end Flowchart
