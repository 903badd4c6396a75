/-!
# First in, first out

A queue keeps its newer part in reverse, so that adding at the end is cheap. Only
the list that it stands for matters, `toList`: adding appends to it, and taking
takes its head.
-/

namespace Flowchart

/-- The items `older`, followed by the items `newer` in reverse. -/
structure Queue (α : Type) where
  older : List α
  newer : List α

namespace Queue

variable {α : Type}

def toList (q : Queue α) : List α :=
  q.older ++ q.newer.reverse

def singleton (a : α) : Queue α := ⟨[a], []⟩

def push (q : Queue α) (a : α) : Queue α :=
  ⟨q.older, a :: q.newer⟩

/-- The first item, and the queue without it. -/
def pop? (q : Queue α) : Option (α × Queue α) :=
  match q.older with
  | a :: rest => some (a, ⟨rest, q.newer⟩)
  | [] =>
    match q.newer.reverse with
    | a :: rest => some (a, ⟨rest, []⟩)
    | [] => none

@[simp]
theorem toList_singleton (a : α) : (singleton a).toList = [a] := rfl

@[simp]
theorem toList_push (q : Queue α) (a : α) : (q.push a).toList = q.toList ++ [a] := by
  simp [toList, push]

theorem pop?_eq_none_iff {q : Queue α} : q.pop? = none ↔ q.toList = [] := by
  unfold pop? toList
  split
  · simp [*]
  · split <;> simp_all

theorem toList_of_pop? {q rest : Queue α} {a : α} (h : q.pop? = some (a, rest)) :
    q.toList = a :: rest.toList := by
  unfold pop? at h
  split at h
  · cases h; simp [toList, *]
  · split at h
    · cases h; simp [toList, *]
    · simp at h

end Queue

end Flowchart
