import Flowchart.Table
import Flowchart.Value

/-!
# Environments

An environment holds the current value of each declared variable, in the order
of the names. Expressions see it as a `Scope`, which can only be asked; a step
changes it with `assign?`, which refuses a name that was never declared. Assigning
therefore never changes which names there are.

A block that runs does not need to know that there is an environment. It needs a
`Store`: a scope to ask, and a way to assign that may refuse.
-/

namespace Flowchart

/-- What an expression can ask about names. -/
abbrev Scope := String → Option Value

/-- What a running block can do with variables: ask for their values, and give one of
them a new value, which is refused when it is not declared. -/
class Store (σ : Type) where
  scope : σ → Scope
  assign? : σ → String → Value → Except Error σ

/-- A declared variable of a diagram. -/
structure Variable where
  name : String
  type : DataType
  deriving DecidableEq, Repr

/-- The current value of every declared variable. -/
structure Environment where
  values : Table String Value
  deriving DecidableEq

namespace Environment

instance : Inhabited Environment := ⟨⟨Table.empty⟩⟩

/-- The environment without variables. -/
def empty : Environment := ⟨Table.empty⟩

/-- Declares a variable, or declares it anew, with the given value. -/
def declare (env : Environment) (name : String) (value : Value) : Environment :=
  ⟨env.values.insert name value⟩

/-- Declares each variable of the list in turn. -/
def declareAll (env : Environment) (values : List (String × Value)) : Environment :=
  values.foldl (fun env entry => env.declare entry.1 entry.2) env

/-- Every variable with the first value of its type. -/
def initial (declared : List Variable) : Environment :=
  empty.declareAll (declared.map fun v => (v.name, v.type.initial))

/-- The environment as expressions see it. -/
def scope (env : Environment) : Scope := fun name =>
  env.values.get? name

def contains (env : Environment) (name : String) : Bool :=
  env.values.contains name

/-- The environment with a new value under a name, whether or not it is declared;
a name that is not declared stays out. -/
def assign (env : Environment) (name : String) (value : Value) : Environment :=
  ⟨env.values.set name value⟩

/-- The environment with a new value of a declared variable. -/
def assign? (env : Environment) (name : String) (value : Value) : Except Error Environment :=
  if env.contains name then .ok (env.assign name value) else .error (.undeclared name)

instance : Store Environment where
  scope := scope
  assign? := assign?

/-- The names with their values, in the order of the names. -/
def toList (env : Environment) : List (String × Value) :=
  env.values.entries

/-- The declared names, in order. -/
def names (env : Environment) : List String :=
  env.values.keys

def size (env : Environment) : Nat :=
  env.values.size

def isEmpty (env : Environment) : Bool :=
  env.values.isEmpty

@[simp] theorem store_scope (env : Environment) : Store.scope env = env.scope := rfl

theorem names_assign (env : Environment) (name : String) (value : Value) :
    (env.assign name value).names = env.names :=
  Table.keys_set env.values name value

/-- Assigning to a variable that has been found declared is not refused. -/
theorem assign?_of_isSome {env : Environment} {name : String}
    (h : (env.scope name).isSome = true) (value : Value) :
    env.assign? name value = .ok (env.assign name value) :=
  if_pos h

theorem scope_declare (env : Environment) (name other : String) (value : Value) :
    (env.declare name value).scope other = if other = name then some value else env.scope other :=
  Table.get?_insert env.values name other value

theorem scope_assign (env : Environment) (name other : String) (value : Value) :
    (env.assign name value).scope other =
      if other = name then (env.scope name).map fun _ => value else env.scope other :=
  Table.get?_set env.values name other value

end Environment

end Flowchart
