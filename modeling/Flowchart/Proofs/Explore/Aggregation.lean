import Flowchart.Proofs.Explore.Counting
import Mathlib.Algebra.Order.Field.Rat
import Mathlib.Data.List.Induction
import Mathlib.Data.List.Perm.Basic
import Mathlib.Order.Bounds.Defs
import Mathlib.Tactic.NormNum
import Mathlib.Tactic.Positivity

/-!
# Aggregating runs

Runs are recorded one at a time, in any order and with any lengths. What their report shows
is nevertheless a count over all of them (`report_ofRuns`): for each number of steps up to
the greatest, the rate over the runs of at most so many steps, also where no run has just
that length.

All of it is read off what one more run changes, and a run that is recorded earlier or later
changes the same (`ofRuns_perm`).
-/

namespace Flowchart

namespace Rate

/-- The matched part in percent, without rounding. -/
def exactPercent (rate : Rate) : ℚ :=
  100 * rate.matched / rate.runs

theorem exactPercent_of_none {rate : Rate} (h : rate.matched = 0) : rate.exactPercent = 0 := by
  rw [exactPercent, h, Nat.cast_zero, mul_zero, zero_div]

theorem exactPercent_of_all {rate : Rate} (h : rate.matched = rate.runs) (hpos : 0 < rate.runs) :
    rate.exactPercent = 100 := by
  rw [exactPercent, h]
  exact mul_div_cancel_right₀ _ (Nat.cast_ne_zero.mpr (Nat.ne_of_gt hpos))

theorem exactPercent_mem {rate : Rate} (h : rate.matched ≤ rate.runs) :
    0 ≤ rate.exactPercent ∧ rate.exactPercent ≤ 100 := by
  constructor
  · exact div_nonneg (by positivity) (by positivity)
  · refine div_le_of_le_mul₀ (by positivity) (by norm_num) ?_
    exact mul_le_mul_of_nonneg_left (by exact_mod_cast h) (by norm_num)

end Rate

theorem Table.get?_mapValues {α β : Type} (f : α → β) (t : Table Nat α) (k : Nat) :
    (t.mapValues f).get? k = (t.get? k).map f := by
  obtain ⟨entries, _⟩ := t
  show find? k (entries.map _) = (find? k entries).map f
  induction entries with
  | nil => rfl
  | cons entry rest ih =>
      rw [List.map_cons, find?, find?]
      split
      · rfl
      · exact ih (List.Pairwise.of_cons ‹_›)

/-- A run as it is recorded: its length, whether it matched, and whether no thread failed. -/
structure Run where
  steps : Nat
  matched : Bool
  clean : Bool
  deriving DecidableEq, Repr

namespace Tally

/-- The tally once these runs have been recorded. -/
def ofRuns (runs : List Run) : Tally :=
  runs.foldl (fun t run => t.record run.steps run.matched run.clean) .empty

theorem ofRuns_snoc (runs : List Run) (run : Run) :
    ofRuns (runs ++ [run]) = (ofRuns runs).record run.steps run.matched run.clean := by
  rw [ofRuns, List.foldl_append]
  rfl

/-- The order of the runs leaves no trace. -/
theorem ofRuns_perm {runs runs' : List Run} (h : runs.Perm runs') : ofRuns runs = ofRuns runs' := by
  unfold ofRuns
  refine h.foldl_eq' ?_ _
  intro a _ b _ t
  exact t.record_comm _ _ _ _ _ _

theorem total_ofRuns (runs : List Run) : (ofRuns runs).total = runs.length := by
  induction runs using List.reverseRecOn with
  | nil => rfl
  | append_singleton runs run ih =>
      rw [ofRuns_snoc, List.length_append, ← ih]
      rfl

theorem completed_ofRuns (runs : List Run) : (ofRuns runs).completed = runs.countP (·.clean) := by
  induction runs using List.reverseRecOn with
  | nil => rfl
  | append_singleton runs run ih =>
      rw [ofRuns_snoc, List.countP_append, ← ih]
      cases hclean : run.clean <;> simp [record, hclean]

/-- For each number of steps the tally counts the runs of at most so many steps. -/
theorem rateUpTo_ofRuns {runs : List Run} (hsteps : ∀ run ∈ runs, 1 ≤ run.steps) (k : Nat) :
    (ofRuns runs).rateUpTo k =
      ⟨runs.countP fun run => decide (run.steps ≤ k) && run.matched,
        runs.countP fun run => decide (run.steps ≤ k)⟩ := by
  induction runs using List.reverseRecOn with
  | nil => rfl
  | append_singleton runs run ih =>
      have ih := ih fun other hmem => hsteps other (List.mem_append_left _ hmem)
      rw [ofRuns_snoc, rateUpTo_record _ _ _ _ (hsteps run (by simp)), ih]
      simp only [List.countP_append, List.countP_singleton]
      by_cases hk : run.steps ≤ k
      · cases hm : run.matched <;> simp [hk, Rate.add, Rate.one]
      · simp [hk]

theorem maxSteps_ofRuns (runs : List Run) :
    (ofRuns runs).maxSteps = (runs.map (·.steps)).foldl max 0 := by
  induction runs using List.reverseRecOn with
  | nil => rfl
  | append_singleton runs run ih =>
      rw [ofRuns_snoc, maxSteps_record, ih, List.map_append, List.foldl_append]
      rfl

/-- No run is longer than the greatest length. -/
theorem steps_le_maxSteps_ofRuns {runs : List Run} {run : Run} (h : run ∈ runs) :
    run.steps ≤ (ofRuns runs).maxSteps := by
  induction runs using List.reverseRecOn with
  | nil => exact absurd h (by simp)
  | append_singleton runs last ih =>
      rw [ofRuns_snoc, maxSteps_record]
      rcases List.mem_append.mp h with h | h
      · exact Nat.le_trans (ih h) (Nat.le_max_left _ _)
      · rw [List.mem_singleton.mp h]
        exact Nat.le_max_right _ _

/-- The greatest length is that of some run. -/
theorem exists_of_maxSteps_ofRuns {runs : List Run} (h : runs ≠ []) :
    ∃ run ∈ runs, run.steps = (ofRuns runs).maxSteps := by
  induction runs using List.reverseRecOn with
  | nil => exact absurd rfl h
  | append_singleton runs last ih =>
      rw [ofRuns_snoc, maxSteps_record]
      by_cases hmax : (ofRuns runs).maxSteps ≤ last.steps
      · exact ⟨last, by simp, (Nat.max_eq_right hmax).symm⟩
      · -- there are runs before, or their greatest length would be zero
        have hne : runs ≠ [] := by
          rintro rfl
          exact hmax (Nat.zero_le _)
        obtain ⟨run, hmem, hrun⟩ := ih hne
        exact ⟨run, List.mem_append_left _ hmem, by rw [hrun, Nat.max_eq_left (by omega)]⟩

/-! ## The report -/

/-- A report that counts some runs by their lengths, and counts each of them once. -/
structure Aggregates (runs : List Run) (report : Report Rate) : Prop where
  keys : report.rates.keys = List.range' 1 report.maxSteps
  maxSteps_of_nil : runs = [] → report.maxSteps = 0
  maxSteps_greatest : runs ≠ [] → IsGreatest {k | ∃ run ∈ runs, run.steps = k} report.maxSteps
  /-- The percentage is over the runs of at most so many steps, zero if there are none. -/
  percent : ∀ k, 1 ≤ k → k ≤ report.maxSteps →
    ∃ percent, (report.map Rate.exactPercent).rates.get? k = some percent ∧
      ((∀ run ∈ runs, k < run.steps) → percent = 0) ∧
      ((∃ run ∈ runs, run.steps ≤ k) → percent =
        100 * (runs.countP fun run => decide (run.steps ≤ k) && run.matched)
          / (runs.countP fun run => decide (run.steps ≤ k))) ∧
      0 ≤ percent ∧ percent ≤ 100
  total : report.total = runs.length
  completed : report.completed = runs.countP (·.clean)
  completed_le : report.completed ≤ report.total
  /-- The last rate is over all runs. -/
  overall : runs ≠ [] → report.overall? = some ⟨runs.countP (·.matched), runs.length⟩

theorem keys_rates (t : Tally) : t.rates.keys = List.range' 1 t.maxSteps :=
  t.map_fst_ratesFrom _ _

theorem isGreatest_maxSteps_ofRuns {runs : List Run} (h : runs ≠ []) :
    IsGreatest {k | ∃ run ∈ runs, run.steps = k} (ofRuns runs).maxSteps := by
  refine ⟨exists_of_maxSteps_ofRuns h, ?_⟩
  rintro k ⟨run, hmem, rfl⟩
  exact steps_le_maxSteps_ofRuns hmem

section

variable {runs : List Run} (hsteps : ∀ run ∈ runs, 1 ≤ run.steps)
include hsteps

/-- What a report shows for a number of steps. -/
theorem get?_rates_ofRuns {k : Nat} (hpos : 1 ≤ k) (hk : k ≤ (ofRuns runs).maxSteps) :
    (ofRuns runs).rates.get? k =
      some ⟨runs.countP fun run => decide (run.steps ≤ k) && run.matched,
        runs.countP fun run => decide (run.steps ≤ k)⟩ := by
  rw [get?_rates, if_pos ⟨hpos, hk⟩, rateUpTo_ofRuns hsteps]

theorem overall?_ofRuns (hne : runs ≠ []) (interrupted : Bool) :
    ((ofRuns runs).report interrupted).overall? =
      some ⟨runs.countP (·.matched), runs.length⟩ := by
  have hall : ∀ run ∈ runs, run.steps ≤ (ofRuns runs).maxSteps := fun run =>
    steps_le_maxSteps_ofRuns
  have hpos : 1 ≤ (ofRuns runs).maxSteps := by
    obtain ⟨run, hmem⟩ := List.exists_mem_of_ne_nil runs hne
    exact Nat.le_trans (hsteps run hmem) (hall run hmem)
  show (ofRuns runs).rates.get? (ofRuns runs).maxSteps = _
  rw [get?_rates_ofRuns hsteps hpos (Nat.le_refl _)]
  generalize (ofRuns runs).maxSteps = greatest at hall
  -- no run is longer than the greatest length, so the bound excludes none
  have hcount : (runs.countP fun run => decide (run.steps ≤ greatest)) = runs.length :=
    List.countP_eq_length.mpr fun run hmem => decide_eq_true (hall run hmem)
  have hmatched : (runs.countP fun run => decide (run.steps ≤ greatest) && run.matched)
      = runs.countP (·.matched) :=
    List.countP_congr fun run hmem => by simp [hall run hmem]
  rw [hcount, hmatched]

end

/-- **A report is a count over all runs**, in whatever order they were recorded. -/
theorem report_ofRuns (runs : List Run) (hsteps : ∀ run ∈ runs, 1 ≤ run.steps)
    (interrupted : Bool) :
    Aggregates runs ((ofRuns runs).report interrupted) ∧
      ∀ runs', runs.Perm runs' →
        (ofRuns runs').report interrupted = (ofRuns runs).report interrupted := by
  refine ⟨?_, fun runs' hperm => by rw [ofRuns_perm hperm]⟩
  constructor
  case keys => exact keys_rates _
  case maxSteps_of_nil =>
    rintro rfl
    rfl
  case maxSteps_greatest => exact isGreatest_maxSteps_ofRuns
  case percent =>
    intro k hpos hk
    have hrate : ((ofRuns runs).rates.mapValues Rate.exactPercent).get? k = _ :=
      Table.get?_mapValues _ _ k
    rw [get?_rates_ofRuns hsteps hpos hk, Option.map_some] at hrate
    refine ⟨_, hrate, ?_, fun _ => rfl, ?_⟩
    · intro hlong
      refine Rate.exactPercent_of_none (List.countP_eq_zero.mpr fun run hmem => ?_)
      have hlt := hlong run hmem
      simp [Nat.not_le.mpr hlt]
    · refine Rate.exactPercent_mem (List.countP_mono_left fun run _ htest => ?_)
      exact (Bool.and_eq_true_iff.mp htest).1
  case total => exact total_ofRuns runs
  case completed => exact completed_ofRuns runs
  case completed_le =>
    show (ofRuns runs).completed ≤ (ofRuns runs).total
    rw [completed_ofRuns, total_ofRuns]
    exact List.countP_le_length
  case overall => exact fun hne => overall?_ofRuns hsteps hne interrupted

/-- Three runs, of which none has two steps. -/
theorem report_ofRuns_withGap :
    let runs : List Run := [⟨3, true, true⟩, ⟨1, false, false⟩, ⟨3, false, true⟩]
    (ofRuns runs).maxSteps = 3 ∧ (ofRuns runs.reverse).report false = (ofRuns runs).report false ∧
      (((ofRuns runs).report false).map Rate.exactPercent).rates.get? 2 = some 0 ∧
      (((ofRuns runs).report false).map Rate.exactPercent).rates.get? 3 = some (100 / 3) := by
  intro runs
  have hgreatest : (ofRuns runs).maxSteps = 3 := by decide
  obtain ⟨haggregates, hperm⟩ := report_ofRuns runs (by decide) false
  obtain ⟨second, hsecond, -, hvalue, -⟩ := haggregates.percent 2 (by decide) (by decide)
  obtain ⟨third, hthird, -, hvalue', -⟩ := haggregates.percent 3 (by decide) (by decide)
  refine ⟨hgreatest, hperm _ (List.reverse_perm _).symm, ?_, ?_⟩
  · rw [hsecond, hvalue ⟨⟨1, false, false⟩, by decide, by decide⟩]
    norm_num [runs]
  · rw [hthird, hvalue' ⟨⟨1, false, false⟩, by decide, by decide⟩]
    norm_num [runs]

end Tally

end Flowchart
