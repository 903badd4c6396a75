import Flowchart.Table

/-!
# Counting runs

A tally counts the runs that have ended, by their length, and how many of each
length printed what was expected. Rates are kept as exact counts; a percentage is
computed only when one is shown. Recording is a sum per length, so the order in
which runs are recorded leaves no trace.
-/

namespace Flowchart

/-- So many runs, of which so many matched. -/
structure Rate where
  matched : Nat
  runs : Nat
  deriving DecidableEq, Repr

namespace Rate

def zero : Rate := ⟨0, 0⟩

def add (a b : Rate) : Rate := ⟨a.matched + b.matched, a.runs + b.runs⟩

/-- One run. -/
def one (matched : Bool) : Rate := ⟨matched.toNat, 1⟩

/-- Whether there are runs and all of them matched. -/
def isFull (r : Rate) : Bool :=
  0 < r.runs && r.matched = r.runs

/-- The matched part in percent, zero if there are no runs. -/
def percent (r : Rate) : Float :=
  if r.runs = 0 then 0 else Float.ofNat r.matched * 100 / Float.ofNat r.runs

end Rate

/-- What a search has found out so far or in the end. The rates count, for each
number of steps from one to the greatest, the runs of at most so many steps. -/
structure Report (ρ : Type) where
  rates : Table Nat ρ
  maxSteps : Nat
  total : Nat
  /-- The runs in which no thread failed. -/
  completed : Nat
  /-- The schedules that were given up for their length. -/
  truncated : Nat
  /-- Whether something was left out. -/
  interrupted : Bool
  deriving DecidableEq

namespace Report

variable {ρ : Type}

/-- The rate over all runs. -/
def overall? (r : Report ρ) : Option ρ :=
  r.rates.get? r.maxSteps

/-- The same report with its rates in another form. -/
def map {σ : Type} (f : ρ → σ) (r : Report ρ) : Report σ :=
  { r with rates := r.rates.mapValues f }

/-- Whether there were runs, and the overall rate passes the test. -/
def passes (full : ρ → Bool) (r : Report ρ) : Bool :=
  0 < r.total && r.overall?.any full

end Report

/-- The runs recorded so far. -/
structure Tally where
  /-- For each length of a run, the rate over the runs of that length. -/
  lengths : Table Nat Rate
  total : Nat
  completed : Nat
  truncated : Nat
  deriving DecidableEq

namespace Tally

def empty : Tally := ⟨Table.empty, 0, 0, 0⟩

/-- Records a run: its length, whether it matched, and whether no thread failed. -/
def record (t : Tally) (steps : Nat) (matched clean : Bool) : Tally :=
  { t with
    lengths := t.lengths.insert steps (((t.lengths.get? steps).getD .zero).add (.one matched))
    total := t.total + 1
    completed := t.completed + clean.toNat }

/-- Records a schedule that was given up. -/
def recordCut (t : Tally) : Tally :=
  { t with truncated := t.truncated + 1 }

/-- The greatest length of a run, zero if there are no runs. -/
def maxSteps (t : Tally) : Nat :=
  t.lengths.keys.getLast?.getD 0

/-- A rate for each of the lengths in turn: the sum so far and the rate of the runs of
that length, of which there may be none. -/
def ratesFrom (t : Tally) : (sum : Rate) → (lengths : List Nat) → List (Nat × Rate)
  | _, [] => []
  | sum, steps :: rest =>
    let sum := sum.add ((t.lengths.get? steps).getD .zero)
    (steps, sum) :: ratesFrom t sum rest

theorem map_fst_ratesFrom (t : Tally) (sum : Rate) (lengths : List Nat) :
    (t.ratesFrom sum lengths).map (·.1) = lengths := by
  induction lengths generalizing sum with
  | nil => rfl
  | cons steps rest ih => rw [ratesFrom, List.map_cons, ih]

/-- The rates for each number of steps up to the greatest. -/
def rates (t : Tally) : Table Nat Rate where
  entries := t.ratesFrom .zero (List.range' 1 t.maxSteps)
  ascending := by
    rw [← List.pairwise_map (f := Prod.fst) (R := (· < ·)), map_fst_ratesFrom]
    exact List.pairwise_lt_range' 1 (by decide)

def report (t : Tally) (interrupted : Bool) : Report Rate where
  rates := t.rates
  maxSteps := t.maxSteps
  total := t.total
  completed := t.completed
  truncated := t.truncated
  interrupted := interrupted

end Tally

end Flowchart
