/-!
# JSON documents

The tree that a text in JSON stands for. The fields of an object keep their order
and their repetitions, because a record that names a field twice is refused while
an unknown field may be repeated at will.

Some texts follow the grammar without naming a value: a number beyond all doubles,
or a string with half of a surrogate pair. They are kept as `unreadable`, so that
a record can still skip them in a field that it does not know.
-/

namespace Flowchart

/-- A number: an integer of at most sixty-four bits, or a double. -/
inductive Number where
  | int (n : Int)
  | double (x : Float)
  deriving DecidableEq

/-- A JSON document. -/
inductive Document where
  | null
  | bool (b : Bool)
  | number (n : Number)
  | str (text : String)
  | array (items : List Document)
  | object (fields : List (String × Document))
  | unreadable

namespace Document

instance : Inhabited Document := ⟨null⟩

/-- The document of a natural number. -/
def nat (n : Nat) : Document := number (.int n)

/-- The document of an optional value: the missing one is `null`. -/
def optional {α : Type} (encode : α → Document) : Option α → Document
  | some a => encode a
  | none => null

mutual

/-- How deep arrays and objects are nested. -/
def depth : Document → Nat
  | array items => itemsDepth items + 1
  | object fields => fieldsDepth fields + 1
  | _ => 0

def itemsDepth : List Document → Nat
  | [] => 0
  | item :: rest => max (depth item) (itemsDepth rest)

def fieldsDepth : List (String × Document) → Nat
  | [] => 0
  | (_, value) :: rest => max (depth value) (fieldsDepth rest)

end

mutual

/-- Whether every part of the document names a value. -/
def isReadable : Document → Bool
  | array items => itemsReadable items
  | object fields => fieldsReadable fields
  | unreadable => false
  | _ => true

def itemsReadable : List Document → Bool
  | [] => true
  | item :: rest => isReadable item && itemsReadable rest

def fieldsReadable : List (String × Document) → Bool
  | [] => true
  | (_, value) :: rest => isReadable value && fieldsReadable rest

end

/-- Arrays and objects nest at most so deep in a document that is read in full. -/
def depthLimit : Nat := 127

end Document

end Flowchart
