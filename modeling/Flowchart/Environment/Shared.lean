import Flowchart.Environment

/-!
# Handles on shared environments

Several handles can stand for one environment: what is assigned through one of
them is seen through all. A fork takes a copy first, and goes its own way from
there. A running thread has one handle, and that is all it can reach of the
environments (`Handle`).
-/

namespace Flowchart

/-- Environments, and handles that each name one of them. -/
structure Sharing where
  environments : List Environment
  /-- For each handle the place of its environment. -/
  handles : List Nat

namespace Sharing

/-- One environment with one handle. -/
def start (env : Environment) : Sharing := ⟨[env], [0]⟩

/-- The place of the environment of a handle. -/
def place? (s : Sharing) (handle : Nat) : Option Nat :=
  s.handles[handle]?

/-- The environment of a handle; a handle that does not exist has an empty one. -/
def environment (s : Sharing) (handle : Nat) : Environment :=
  ((s.place? handle).bind fun place => s.environments[place]?).getD .empty

/-- A further handle on the environment of a handle. -/
def clone (s : Sharing) (handle : Nat) : Sharing :=
  { s with handles := s.handles ++ (s.place? handle).toList }

/-- A further handle, on a copy of the environment of a handle. -/
def fork (s : Sharing) (handle : Nat) : Sharing :=
  ⟨s.environments ++ [s.environment handle], s.handles ++ [s.environments.length]⟩

/-- Assigns through a handle. -/
def assign? (s : Sharing) (handle : Nat) (name : String) (value : Value) :
    Except Error Sharing :=
  match s.place? handle, (s.environment handle).assign? name value with
  | _, .error e => .error e
  | none, .ok _ => .ok s
  | some place, .ok env => .ok { s with environments := s.environments.set place env }

/-- What each handle sees, in the order of the handles. -/
def views (s : Sharing) : List Environment :=
  (List.range s.handles.length).map s.environment

end Sharing

/-- One of the handles, in use. -/
structure Handle where
  index : Nat
  sharing : Sharing

namespace Handle

/-- What is asked through the handle. Whether a variable is declared is asked this way
too. -/
def scope (h : Handle) : Scope :=
  (h.sharing.environment h.index).scope

/-- Assigns through the handle. -/
def assign? (h : Handle) (name : String) (value : Value) : Except Error Handle :=
  (h.sharing.assign? h.index name value).map fun sharing => { h with sharing := sharing }

instance : Store Handle where
  scope := scope
  assign? := assign?

end Handle

end Flowchart
