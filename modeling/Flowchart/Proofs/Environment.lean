import Flowchart.Environment
import Mathlib.Data.List.Nodup

/-!
# Environments are what their scopes say

Two environments with the same scope are equal (`Environment.ext_scope`), since a table
lists its entries in one order only. Declaring settles which names have a value, and
assigning never changes that.
-/

namespace Flowchart

namespace Table

variable {κ α : Type} [LT κ] [Ordered κ] [DecidableEq κ]

omit [LT κ] [Ordered κ] in
theorem mem_of_find? {k : κ} {a : α} {entries : List (κ × α)} (h : find? k entries = some a) :
    (k, a) ∈ entries := by
  induction entries with
  | nil => exact absurd h (by simp [find?])
  | cons head rest ih =>
      obtain ⟨j, b⟩ := head
      rw [find?] at h
      split at h
      · next heq =>
        rw [heq, Option.some.inj h]
        exact List.mem_cons_self
      · exact List.mem_cons_of_mem _ (ih h)

/-- The first key of ascending entries does not come again. -/
theorem find?_of_pairwise_cons {j : κ} {b : α} {rest : List (κ × α)}
    (h : ((j, b) :: rest).Pairwise fun a b => a.1 < b.1) : find? j rest = none := by
  cases hfind : find? j rest with
  | none => rfl
  | some a => exact absurd (List.rel_of_pairwise_cons h (mem_of_find? hfind)) (Ordered.irrefl j)

/-- Ascending entries with the same lookups are the same entries. -/
theorem entries_eq {s t : List (κ × α)} (hs : s.Pairwise fun a b => a.1 < b.1)
    (ht : t.Pairwise fun a b => a.1 < b.1) (h : ∀ k, find? k s = find? k t) : s = t := by
  induction s generalizing t with
  | nil =>
      cases t with
      | nil => rfl
      | cons head rest =>
          have hhead := h head.1
          rw [find?, find?, if_pos rfl] at hhead
          exact absurd hhead (by simp)
  | cons head rest ih =>
      obtain ⟨j, a⟩ := head
      cases t with
      | nil =>
          have hhead := h j
          rw [find?, find?, if_pos rfl] at hhead
          exact absurd hhead (by simp)
      | cons head' rest' =>
          obtain ⟨i, b⟩ := head'
          have hkey : j = i := by
            -- otherwise each key stands behind the other one
            by_cases heq : j = i
            · exact heq
            · have hj := h j
              have hi := h i
              rw [find?, if_pos rfl, find?, if_neg (Ne.symm heq)] at hj
              rw [find?, if_neg heq, find?, if_pos rfl] at hi
              have hlt := List.rel_of_pairwise_cons ht (mem_of_find? hj.symm)
              have hgt := List.rel_of_pairwise_cons hs (mem_of_find? hi)
              exact absurd (Ordered.trans hlt hgt) (Ordered.irrefl i)
          subst hkey
          have hvalue := h j
          rw [find?, find?, if_pos rfl, if_pos rfl] at hvalue
          rw [Option.some.inj hvalue, ih hs.of_cons ht.of_cons fun k => ?_]
          have hk := h k
          rw [find?, find?] at hk
          by_cases heq : j = k
          · rw [← heq, find?_of_pairwise_cons hs, find?_of_pairwise_cons ht]
          · rwa [if_neg heq, if_neg heq] at hk

/-- Every entry of ascending entries is found. -/
theorem find?_of_mem {k : κ} {a : α} {entries : List (κ × α)}
    (h : entries.Pairwise fun a b => a.1 < b.1) (hmem : (k, a) ∈ entries) :
    find? k entries = some a := by
  induction entries with
  | nil => exact absurd hmem (by simp)
  | cons head rest ih =>
      obtain ⟨j, b⟩ := head
      rw [find?]
      rcases List.mem_cons.mp hmem with heq | hmem
      · obtain ⟨rfl, rfl⟩ := Prod.mk.inj heq
        rw [if_pos rfl]
      · have hlt := List.rel_of_pairwise_cons h hmem
        rw [if_neg, ih h.of_cons hmem]
        rintro rfl
        exact Ordered.irrefl _ hlt

/-- The entries of a table are what can be looked up in it. -/
theorem mem_entries {t : Table κ α} {k : κ} {a : α} : (k, a) ∈ t.entries ↔ t.get? k = some a :=
  ⟨find?_of_mem t.ascending, mem_of_find?⟩

/-- Tables with the same lookups are equal. -/
theorem ext_get? {s t : Table κ α} (h : ∀ k, s.get? k = t.get? k) : s = t :=
  ext (entries_eq s.ascending t.ascending h)

/-- It makes no difference which of two keys is entered first. -/
theorem insert_comm [DecidableLT κ] {k k' : κ} (h : k ≠ k') (t : Table κ α) (a b : α) :
    (t.insert k a).insert k' b = (t.insert k' b).insert k a := by
  refine ext_get? fun other => ?_
  simp only [get?_insert]
  by_cases hk : other = k
  · rw [if_pos hk, if_pos hk, if_neg (hk ▸ h)]
  · rw [if_neg hk, if_neg hk]

/-- Of two entries under one key the later one counts. -/
theorem insert_insert [DecidableLT κ] (t : Table κ α) (k : κ) (a b : α) :
    (t.insert k a).insert k b = t.insert k b := by
  refine ext_get? fun other => ?_
  simp only [get?_insert]
  by_cases hk : other = k
  · rw [if_pos hk, if_pos hk]
  · rw [if_neg hk, if_neg hk, if_neg hk]

end Table

namespace Environment

theorem ext_scope {env env' : Environment} (h : ∀ name, env.scope name = env'.scope name) :
    env = env' := by
  obtain ⟨values⟩ := env
  obtain ⟨values'⟩ := env'
  rw [Environment.mk.injEq]
  exact Table.ext_get? h

theorem isSome_scope_assign (env : Environment) (name other : String) (value : Value) :
    ((env.assign name value).scope other).isSome = (env.scope other).isSome := by
  rw [scope_assign]
  split
  · next heq => rw [heq, Option.isSome_map]
  · rfl

/-- Two environments that give a name the same value still do once a value is assigned
in both. -/
theorem scope_assign_congr {env env' : Environment} {other : String}
    (h : env.scope other = env'.scope other) (name : String) (value : Value) :
    (env.assign name value).scope other = (env'.assign name value).scope other := by
  rw [scope_assign, scope_assign]
  split
  · next heq => rw [← heq, h]
  · exact h

theorem isSome_scope_declareAll (values : List (String × Value)) (env : Environment)
    (name : String) :
    ((env.declareAll values).scope name).isSome = true ↔
      (env.scope name).isSome = true ∨ name ∈ values.map (·.1) := by
  induction values generalizing env with
  | nil => simp [declareAll]
  | cons entry rest ih =>
      have hih := ih (env.declare entry.1 entry.2)
      rw [scope_declare] at hih
      rw [declareAll, List.foldl_cons]
      rw [declareAll] at hih
      rw [hih, List.map_cons, List.mem_cons]
      by_cases heq : name = entry.1
      · simp [heq]
      · simp [heq]

/-- At first the declared names have values, and no others. -/
theorem isSome_scope_initial (declared : List Variable) (name : String) :
    ((initial declared).scope name).isSome = true ↔ name ∈ declared.map (·.name) := by
  have hempty : (empty.scope name).isSome = false := rfl
  rw [initial, isSome_scope_declareAll, hempty, List.map_map]
  simp [Function.comp_def]

theorem declare_comm {name other : String} (h : name ≠ other) (env : Environment)
    (value value' : Value) :
    (env.declare name value).declare other value'
      = (env.declare other value').declare name value :=
  congrArg Environment.mk (Table.insert_comm h env.values value value')

/-- The order in which variables are declared leaves no trace. -/
theorem initial_perm {declared declared' : List Variable}
    (hnodup : (declared.map (·.name)).Nodup) (h : declared.Perm declared') :
    initial declared = initial declared' := by
  unfold initial declareAll
  rw [List.foldl_map, List.foldl_map]
  refine h.foldl_eq' (fun v hv w hw env => ?_) empty
  by_cases hname : v.name = w.name
  · rw [List.inj_on_of_nodup_map hnodup hv hw hname]
  · exact declare_comm hname env _ _

end Environment

end Flowchart
