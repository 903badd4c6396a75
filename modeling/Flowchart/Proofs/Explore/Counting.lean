import Flowchart.Explore.Tally
import Flowchart.Proofs.Environment

/-!
# What a tally counts

A tally keeps one rate for each length, and its report adds them up. Seen through
its report, recording a run does three things and no more: it raises the totals by
one, it adds one run to the rate of every number of steps from its length on, and it
raises the greatest length to its own if that is greater.
-/

namespace Flowchart

namespace Rate

@[simp]
theorem zero_add (a : Rate) : Rate.zero.add a = a := by
  simp [add, zero]

@[simp]
theorem add_zero (a : Rate) : a.add .zero = a := by
  simp [add, zero]

theorem add_assoc (a b c : Rate) : (a.add b).add c = a.add (b.add c) := by
  simp [add, Nat.add_assoc]

theorem add_comm (a b : Rate) : a.add b = b.add a := by
  simp [add, Nat.add_comm]

/-- The sum of the rates of the entries whose keys pass a test. -/
def sumOver (test : Nat → Bool) : List (Nat × Rate) → Rate
  | [] => .zero
  | (n, rate) :: rest => if test n then rate.add (sumOver test rest) else sumOver test rest

theorem sumOver_of_none {test : Nat → Bool} (h : ∀ n, test n = false)
    (entries : List (Nat × Rate)) : sumOver test entries = .zero := by
  induction entries with
  | nil => rfl
  | cons entry rest ih => rw [sumOver, h, if_neg (by simp), ih]

theorem sumOver_congr {test test' : Nat → Bool} {entries : List (Nat × Rate)}
    (h : ∀ entry ∈ entries, test entry.1 = test' entry.1) :
    sumOver test entries = sumOver test' entries := by
  induction entries with
  | nil => rfl
  | cons entry rest ih =>
      rw [sumOver, sumOver, h entry List.mem_cons_self,
        ih fun other hmem => h other (List.mem_cons_of_mem _ hmem)]

end Rate

namespace Table

variable {α : Type}

theorem find?_eq_none_of_lt {k : Nat} {entries : List (Nat × α)}
    (h : ∀ entry ∈ entries, k < entry.1) : find? k entries = none := by
  induction entries with
  | nil => rfl
  | cons entry rest ih =>
      have hlt := h entry (by simp)
      rw [find?, if_neg (by omega)]
      exact ih fun other hmem => h other (List.mem_cons_of_mem _ hmem)

/-- Adding to the rate under a key adds to every sum that the key is part of. -/
theorem sumOver_place {k : Nat} {rate : Rate} {test : Nat → Bool} {entries : List (Nat × Rate)}
    (h : entries.Pairwise fun a b => a.1 < b.1) :
    Rate.sumOver test (place k (((find? k entries).getD .zero).add rate) entries)
      = (Rate.sumOver test entries).add (if test k then rate else .zero) := by
  induction entries with
  | nil => by_cases hk : test k = true <;> simp [place, find?, Rate.sumOver, hk]
  | cons entry rest ih =>
      obtain ⟨j, old⟩ := entry
      obtain ⟨habove, hrest⟩ := List.pairwise_cons.mp h
      rcases Nat.lt_trichotomy k j with hkj | hkj | hkj
      -- below the first key: the entry is new, and nothing was counted under it
      · have hnone : find? k ((j, old) :: rest) = none := by
          refine find?_eq_none_of_lt fun other hmem => ?_
          rcases List.mem_cons.mp hmem with rfl | hmem
          · exact hkj
          · exact Nat.lt_trans hkj (habove other hmem)
        rw [hnone, place, if_pos hkj, Rate.sumOver]
        by_cases hk : test k = true
        · simp only [hk, if_true, Option.getD_none, Rate.zero_add]
          exact Rate.add_comm _ _
        · simp [hk]
      -- the entry is there: what is added to it is added to the sum
      · subst hkj
        rw [place, if_neg (Nat.lt_irrefl k), if_neg (Nat.lt_irrefl k)]
        simp only [find?, if_true, Option.getD_some, Rate.sumOver]
        by_cases hk : test k = true
        · simp only [hk, if_true]
          rw [Rate.add_assoc, Rate.add_assoc, Rate.add_comm rate]
        · simp [hk]
      -- further on: the first entry stays, and the rest follows by induction
      · rw [place, if_neg (by omega), if_pos hkj, find?, if_neg (by omega)]
        by_cases hj : test j = true
        · rw [Rate.sumOver, Rate.sumOver, if_pos hj, if_pos hj, ih hrest, Rate.add_assoc]
        · rw [Rate.sumOver, Rate.sumOver, if_neg hj, if_neg hj, ih hrest]

/-- A test that lets one more key pass adds what the table holds under it. -/
theorem sumOver_widen {k : Nat} {test test' : Nat → Bool} {entries : List (Nat × Rate)}
    (h : entries.Pairwise fun a b => a.1 < b.1) (hk : test k = false) (hk' : test' k = true)
    (hsame : ∀ n, n ≠ k → test' n = test n) :
    Rate.sumOver test' entries
      = (Rate.sumOver test entries).add ((find? k entries).getD .zero) := by
  induction entries with
  | nil => simp [Rate.sumOver, find?]
  | cons entry rest ih =>
      obtain ⟨j, rate⟩ := entry
      obtain ⟨habove, hrest⟩ := List.pairwise_cons.mp h
      by_cases hj : j = k
      · -- the key does not occur again
        subst hj
        rw [Rate.sumOver, Rate.sumOver, if_pos hk', if_neg (by simp [hk]), ih hrest,
          find?_eq_none_of_lt habove, find?, if_pos rfl, Option.getD_none, Rate.add_zero,
          Option.getD_some, Rate.add_comm]
      · rw [Rate.sumOver, Rate.sumOver, hsame j hj, find?, if_neg hj, ih hrest]
        by_cases hpass : test j = true
        · rw [if_pos hpass, if_pos hpass, Rate.add_assoc]
        · rw [if_neg hpass, if_neg hpass]

theorem mem_keys_place {k j : Nat} {a : α} {entries : List (Nat × α)} :
    j ∈ (place k a entries).map Prod.fst ↔ j = k ∨ j ∈ entries.map Prod.fst := by
  induction entries with
  | nil => simp [place]
  | cons entry rest ih =>
      obtain ⟨i, b⟩ := entry
      rw [place]
      split
      · simp
      · split
        · rw [List.map_cons, List.mem_cons, ih, List.map_cons, List.mem_cons]
          exact or_left_comm
        · have hik : i = k := by omega
          subst hik
          simp

/-- The last key is the greatest. -/
theorem le_getLast?_keys {t : Table Nat α} {k : Nat} (h : k ∈ t.keys) :
    k ≤ t.keys.getLast?.getD 0 := by
  have hasc : t.keys.Pairwise (· < ·) := by
    rw [keys, List.pairwise_map]
    exact t.ascending
  obtain ⟨front, last, hkeys⟩ : ∃ front last, t.keys = front ++ [last] :=
    ⟨_, _, (List.dropLast_concat_getLast (List.ne_nil_of_mem h)).symm⟩
  rw [hkeys] at h hasc ⊢
  rw [List.getLast?_concat, Option.getD_some]
  rcases List.mem_append.mp h with h | h
  · exact Nat.le_of_lt ((List.pairwise_append.mp hasc).2.2 k h last (by simp))
  · exact Nat.le_of_eq (List.mem_singleton.mp h)

theorem getLast?_keys_mem {t : Table Nat α} (h : t.keys ≠ []) :
    t.keys.getLast?.getD 0 ∈ t.keys := by
  rw [List.getLast?_eq_some_getLast h, Option.getD_some]
  exact List.getLast_mem h

end Table

namespace Tally

/-- The order in which two runs are recorded leaves no trace. -/
theorem record_comm (t : Tally) (steps steps' : Nat) (matched matched' clean clean' : Bool) :
    (t.record steps matched clean).record steps' matched' clean'
      = (t.record steps' matched' clean').record steps matched clean := by
  have hcompleted : t.completed + clean.toNat + clean'.toNat
      = t.completed + clean'.toNat + clean.toNat := Nat.add_right_comm _ _ _
  unfold record
  rw [Tally.mk.injEq]
  refine ⟨?_, rfl, hcompleted, rfl⟩
  by_cases h : steps = steps'
  · subst h
    simp only [Table.get?_insert, if_pos, Option.getD_some, Table.insert_insert, Rate.add_assoc,
      Rate.add_comm (.one matched)]
  · simp only [Table.get?_insert, if_neg h, if_neg (Ne.symm h)]
    exact Table.insert_comm h _ _ _

/-- The rate over the runs of at least one and at most so many steps. -/
def rateUpTo (t : Tally) (steps : Nat) : Rate :=
  Rate.sumOver (fun n => decide (1 ≤ n) && decide (n ≤ steps)) t.lengths.entries

/-- A run counts for every number of steps from its length on. -/
theorem rateUpTo_record (t : Tally) {steps : Nat} (matched clean : Bool) (k : Nat)
    (hsteps : 1 ≤ steps) :
    (t.record steps matched clean).rateUpTo k
      = if steps ≤ k then (t.rateUpTo k).add (.one matched) else t.rateUpTo k := by
  show Rate.sumOver _ (Table.place _ _ _) = _
  rw [Table.get?, Table.sumOver_place t.lengths.ascending, ← rateUpTo]
  by_cases hk : steps ≤ k <;> simp [hk, hsteps]

theorem maxSteps_record (t : Tally) (steps : Nat) (matched clean : Bool) :
    (t.record steps matched clean).maxSteps = max t.maxSteps steps := by
  have hmem : ∀ j, j ∈ (t.record steps matched clean).lengths.keys
      ↔ j = steps ∨ j ∈ t.lengths.keys := fun j => Table.mem_keys_place
  have hself : steps ∈ (t.record steps matched clean).lengths.keys := (hmem steps).mpr (.inl rfl)
  unfold maxSteps
  apply Nat.le_antisymm
  -- the new greatest key is the new one or an old one
  · rcases (hmem _).mp (Table.getLast?_keys_mem (List.ne_nil_of_mem hself)) with h | h
    · rw [h]; exact Nat.le_max_right _ _
    · exact Nat.le_trans (Table.le_getLast?_keys h) (Nat.le_max_left _ _)
  · refine Nat.max_le.mpr ⟨?_, Table.le_getLast?_keys hself⟩
    by_cases hnil : t.lengths.keys = []
    · rw [hnil]; exact Nat.zero_le _
    · exact Table.le_getLast?_keys ((hmem _).mpr (.inr (Table.getLast?_keys_mem hnil)))

theorem rateUpTo_zero (t : Tally) : t.rateUpTo 0 = .zero := by
  refine Rate.sumOver_of_none (fun n => ?_) _
  rw [Bool.and_eq_false_iff, decide_eq_false_iff_not, decide_eq_false_iff_not]
  omega

/-- One more step adds the runs of just that length. -/
theorem rateUpTo_succ (t : Tally) (steps : Nat) :
    t.rateUpTo (steps + 1) = (t.rateUpTo steps).add ((t.lengths.get? (steps + 1)).getD .zero) := by
  refine Table.sumOver_widen t.lengths.ascending (by simp) (by simp) fun n hn => ?_
  have hle : n ≤ steps + 1 ↔ n ≤ steps := by omega
  simp only [hle]

/-- From the greatest length on the rate stays the same. -/
theorem rateUpTo_min (t : Tally) (steps : Nat) :
    t.rateUpTo (min steps t.maxSteps) = t.rateUpTo steps := by
  refine Rate.sumOver_congr fun entry hmem => ?_
  have hle : entry.1 ≤ t.maxSteps := Table.le_getLast?_keys (List.mem_map_of_mem hmem)
  have hmin : entry.1 ≤ min steps t.maxSteps ↔ entry.1 ≤ steps := by omega
  simp only [hmin]

/-- The sums that a report is made of count the runs of at most so many steps. -/
theorem ratesFrom_rateUpTo (t : Tally) (steps count : Nat) :
    t.ratesFrom (t.rateUpTo steps) (List.range' (steps + 1) count)
      = (List.range' (steps + 1) count).map fun n => (n, t.rateUpTo n) := by
  induction count generalizing steps with
  | zero => rfl
  | succ count ih =>
      rw [List.range'_succ, ratesFrom, ← rateUpTo_succ, ih, List.map_cons]

theorem entries_rates (t : Tally) :
    t.rates.entries = (List.range' 1 t.maxSteps).map fun steps => (steps, t.rateUpTo steps) := by
  show t.ratesFrom .zero _ = _
  rw [← rateUpTo_zero, ratesFrom_rateUpTo]

/-- The rates are read off the lengths alone. -/
theorem rates_congr {t t' : Tally} (h : t.lengths = t'.lengths) : t.rates = t'.rates := by
  have hmax : t.maxSteps = t'.maxSteps := by rw [maxSteps, maxSteps, h]
  have hrate : t.rateUpTo = t'.rateUpTo := by
    funext k
    rw [rateUpTo, rateUpTo, h]
  exact Table.ext (by rw [entries_rates, entries_rates, hmax, hrate])

/-- The rate that a report shows for a number of steps. -/
theorem get?_rates (t : Tally) (k : Nat) :
    t.rates.get? k = if 1 ≤ k ∧ k ≤ t.maxSteps then some (t.rateUpTo k) else none := by
  have hfind : ∀ keys : List Nat, Table.find? k (keys.map fun n => (n, t.rateUpTo n))
      = if k ∈ keys then some (t.rateUpTo k) else none := by
    intro keys
    induction keys with
    | nil => rfl
    | cons n rest ih =>
        rw [List.map_cons, Table.find?]
        by_cases hn : n = k
        · simp [hn]
        · simp [hn, Ne.symm hn, ih]
  rw [Table.get?, entries_rates, hfind]
  have hrange : k ∈ List.range' 1 t.maxSteps ↔ 1 ≤ k ∧ k ≤ t.maxSteps := by
    rw [List.mem_range'_1]
    omega
  simp only [hrange]

end Tally

end Flowchart
