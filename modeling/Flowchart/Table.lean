/-!
# Tables in ascending order of their keys

A table is a finite map kept as a list of entries whose keys ascend. The order
is part of the type, so a table has exactly one representation: two tables with
the same entries are equal, and listing one is listing it in order.

`get?` and `insert` agree in the usual way (`get?_insert`), and overwriting a key
that is there (`set`) never changes which keys there are (`keys_set`).
-/

namespace Flowchart

/-- A finite map from `κ` to `α`, listed by ascending key. -/
structure Table (κ α : Type) [LT κ] where
  entries : List (κ × α)
  ascending : entries.Pairwise fun a b => a.1 < b.1

namespace Table

/-- A strict order in which any two different keys compare. -/
class Ordered (κ : Type) [LT κ] : Prop where
  irrefl (a : κ) : ¬a < a
  trans {a b c : κ} : a < b → b < c → a < c
  connected (a b : κ) : ¬a < b → ¬b < a → a = b

instance : Ordered Nat where
  irrefl := Nat.lt_irrefl
  trans := Nat.lt_trans
  connected a b h h' := by omega

instance : Ordered String where
  irrefl := String.lt_irrefl
  trans := String.lt_trans
  connected _ _ h h' := String.le_antisymm (String.not_lt.mp h') (String.not_lt.mp h)

instance : Ordered UInt32 where
  irrefl := UInt32.lt_irrefl
  trans := UInt32.lt_trans
  connected _ _ h h' := UInt32.le_antisymm (UInt32.not_lt.mp h') (UInt32.not_lt.mp h)

variable {κ α : Type} [LT κ]

instance [DecidableEq κ] [DecidableEq α] : DecidableEq (Table κ α) := fun s t =>
  if h : s.entries = t.entries then
    isTrue (by cases s; cases t; simp_all)
  else
    isFalse fun e => h (by rw [e])

@[ext]
theorem ext {s t : Table κ α} (h : s.entries = t.entries) : s = t := by
  cases s; cases t; simp_all

def empty : Table κ α := ⟨[], .nil⟩

instance : Inhabited (Table κ α) := ⟨empty⟩

/-- The keys, in ascending order. -/
def keys (t : Table κ α) : List κ :=
  t.entries.map (·.1)

def size (t : Table κ α) : Nat :=
  t.entries.length

def isEmpty (t : Table κ α) : Bool :=
  t.entries.isEmpty

/-- What a list of entries holds under a key. -/
def find? [DecidableEq κ] (k : κ) : List (κ × α) → Option α
  | [] => none
  | (j, a) :: rest => if j = k then some a else find? k rest

/-- What the table holds under a key. -/
def get? [DecidableEq κ] (t : Table κ α) (k : κ) : Option α :=
  find? k t.entries

def contains [DecidableEq κ] (t : Table κ α) (k : κ) : Bool :=
  (t.get? k).isSome

/-! ## Changing the value under a key that is there -/

/-- Overwrites every entry with the key. -/
def overwrite [DecidableEq κ] (k : κ) (a : α) : List (κ × α) → List (κ × α) :=
  List.map fun entry => if entry.1 = k then (entry.1, a) else entry

omit [LT κ] in
theorem map_fst_overwrite [DecidableEq κ] (k : κ) (a : α) (entries : List (κ × α)) :
    (overwrite k a entries).map (·.1) = entries.map (·.1) := by
  rw [overwrite, List.map_map]
  refine List.map_congr_left fun entry _ => ?_
  simp only [Function.comp]
  split <;> rfl

/-- The table with the value under the key replaced; a key that is not there
stays out. -/
def set [DecidableEq κ] (t : Table κ α) (k : κ) (a : α) : Table κ α where
  entries := overwrite k a t.entries
  ascending := by
    have h := t.ascending
    rw [← List.pairwise_map (f := Prod.fst) (R := (· < ·))] at h ⊢
    rw [map_fst_overwrite k a]
    exact h

theorem keys_set [DecidableEq κ] (t : Table κ α) (k : κ) (a : α) : (t.set k a).keys = t.keys :=
  map_fst_overwrite k a t.entries

/-! ## Inserting -/

/-- Puts an entry where its key belongs, over the entry that is there. -/
def place [DecidableLT κ] (k : κ) (a : α) : List (κ × α) → List (κ × α)
  | [] => [(k, a)]
  | (j, b) :: rest =>
    if k < j then (k, a) :: (j, b) :: rest
    else if j < k then (j, b) :: place k a rest
    else (j, a) :: rest

theorem mem_place [DecidableLT κ] {k : κ} {a : α} {entry : κ × α} {entries : List (κ × α)}
    (h : entry ∈ place k a entries) : entry.1 = k ∨ ∃ b, (entry.1, b) ∈ entries := by
  induction entries with
  | nil => simp only [place, List.mem_singleton] at h; exact .inl (by rw [h])
  | cons head rest ih =>
    obtain ⟨j, b⟩ := head
    rw [place] at h
    split at h
    · rcases List.mem_cons.mp h with h | h
      · exact .inl (by rw [h])
      · exact .inr ⟨entry.2, h⟩
    · split at h
      · rcases List.mem_cons.mp h with h | h
        · exact .inr ⟨b, by simp [h]⟩
        · rcases ih h with h | ⟨c, h⟩
          · exact .inl h
          · exact .inr ⟨c, List.mem_cons_of_mem _ h⟩
      · rcases List.mem_cons.mp h with h | h
        · exact .inr ⟨b, by simp [h]⟩
        · exact .inr ⟨entry.2, List.mem_cons_of_mem _ h⟩

theorem pairwise_place [DecidableLT κ] [Ordered κ] {k : κ} {a : α}
    {entries : List (κ × α)} (h : entries.Pairwise fun a b => a.1 < b.1) :
    (place k a entries).Pairwise fun a b => a.1 < b.1 := by
  induction entries with
  | nil => simp [place]
  | cons head rest ih =>
    obtain ⟨j, b⟩ := head
    have above {i : κ} {c : α} (mem : (i, c) ∈ rest) : j < i :=
      List.rel_of_pairwise_cons h mem
    rw [place]
    split
    · next lt =>
      refine List.pairwise_cons.mpr ⟨fun entry mem => ?_, h⟩
      rcases List.mem_cons.mp mem with e | mem
      · rw [e]; exact lt
      · exact Ordered.trans lt (above mem)
    · split
      · next lt =>
        refine List.pairwise_cons.mpr ⟨fun entry mem => ?_, ih h.of_cons⟩
        rcases mem_place mem with e | ⟨c, mem⟩
        · simp only [e]; exact lt
        · exact above mem
      · exact List.pairwise_cons.mpr ⟨fun entry mem => above mem, h.of_cons⟩

/-- The table with a value under the key, whether or not the key was there. -/
def insert [DecidableLT κ] [Ordered κ] (t : Table κ α) (k : κ) (a : α) : Table κ α :=
  ⟨place k a t.entries, pairwise_place t.ascending⟩

/-- The table of the entries, of which a later one wins over an earlier one. -/
def ofList [DecidableLT κ] [Ordered κ] (entries : List (κ × α)) : Table κ α :=
  entries.foldl (fun t entry => t.insert entry.1 entry.2) empty

/-- The same keys with other values. -/
def mapValues {β : Type} (f : α → β) (t : Table κ α) : Table κ β where
  entries := t.entries.map fun entry => (entry.1, f entry.2)
  ascending := by
    rw [List.pairwise_map]
    exact t.ascending

/-! ## What the operations do to lookups -/

section Lookup

variable [DecidableEq κ]

theorem get?_empty (k : κ) : (empty : Table κ α).get? k = none := rfl

omit [LT κ] in
theorem find?_overwrite (k j : κ) (a : α) (entries : List (κ × α)) :
    find? j (overwrite k a entries) =
      if j = k then (find? k entries).map fun _ => a else find? j entries := by
  induction entries with
  | nil => simp [overwrite, find?]
  | cons head rest ih =>
    obtain ⟨i, b⟩ := head
    simp only [overwrite, List.map_cons] at ih ⊢
    by_cases hi : i = k <;> by_cases hj : j = k <;> by_cases hij : i = j <;>
      simp_all [find?]

theorem get?_set (t : Table κ α) (k j : κ) (a : α) :
    (t.set k a).get? j = if j = k then (t.get? k).map fun _ => a else t.get? j :=
  find?_overwrite k j a t.entries

variable [DecidableLT κ]

theorem find?_place [Ordered κ] (k j : κ) (a : α) (entries : List (κ × α)) :
    find? j (place k a entries) = if j = k then some a else find? j entries := by
  induction entries with
  | nil => simp [place, find?, eq_comm]
  | cons head rest ih =>
    obtain ⟨i, b⟩ := head
    rw [place]
    split
    · simp [find?, eq_comm]
    · next notBelow =>
      split
      · next above =>
        have ne : i ≠ k := fun e => Ordered.irrefl k (e ▸ above)
        rw [find?, ih, find?]
        by_cases hij : i = j
        · subst hij; simp [ne]
        · simp [hij]
      · next notAbove =>
        have e : i = k := Ordered.connected i k notAbove notBelow
        subst e
        by_cases hij : i = j
        · simp [find?, hij]
        · simp [find?, hij, Ne.symm hij]

theorem get?_insert [Ordered κ] (t : Table κ α) (k j : κ) (a : α) :
    (t.insert k a).get? j = if j = k then some a else t.get? j :=
  find?_place k j a t.entries

end Lookup

end Table

end Flowchart
