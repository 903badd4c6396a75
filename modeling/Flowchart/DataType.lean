/-!
# The types of variables
-/

namespace Flowchart

/-- The declared type of a variable. A declaration fixes only the first value:
every later value keeps a type of its own. -/
inductive DataType where
  | int
  | double
  | str
  | bool
  deriving DecidableEq, Repr

/-- The name of the type in documents and messages. -/
def DataType.name : DataType → String
  | .int => "int"
  | .double => "double"
  | .str => "string"
  | .bool => "boolean"

/-- The type with the given name. -/
def DataType.ofName? (name : String) : Option DataType :=
  [DataType.int, .double, .str, .bool].find? (·.name = name)

theorem DataType.ofName?_name (t : DataType) : DataType.ofName? t.name = some t := by
  cases t <;> rfl

end Flowchart
