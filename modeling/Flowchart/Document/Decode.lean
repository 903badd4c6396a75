import Flowchart.Document.Reader

/-!
# Taking documents apart

A record is written as an object with named fields, or as an array of the fields
in their order. In an object the order is free, fields that the record does not
know are skipped, and a field that it knows must not be repeated; an array may be
too short but not too long. Whether a missing field matters is for the record to
say.
-/

namespace Flowchart

/-- What is computed for every item succeeds where it does for each of them, in their order. -/
theorem mapM_eq_some_iff {α β : Type} {f : α → Option β} {items : List α} {results : List β} :
    items.mapM f = some results ↔ items.map f = results.map some := by
  induction items generalizing results with
  | nil => cases results <;> simp [List.mapM_nil]
  | cons item items ih =>
      cases results with
      | nil => simp [List.mapM_cons, Option.bind_eq_some_iff]
      | cons result results => simp [List.mapM_cons, Option.bind_eq_some_iff, ih]

namespace Document

/-- The values of the named fields of a record, in the order of the names. -/
def fields? (names : List String) : Document → Option (List (Option Document))
  | object entries =>
    names.mapM fun name =>
      match entries.filter (·.1 = name) with
      | [] => some none
      | [entry] => some (some entry.2)
      | _ => none
  | array items =>
    if items.length ≤ names.length then
      some ((List.range names.length).map fun i => items[i]?)
    else none
  | _ => none

def str? : Document → Option String
  | str text => some text
  | _ => none

/-- A natural number below a limit. -/
def natBelow? (limit : Nat) : Document → Option Nat
  | number (.int n) => if 0 ≤ n ∧ n.toNat < limit then some n.toNat else none
  | _ => none

/-- An array of which every item can be taken apart. -/
def list? {α : Type} (decode : Document → Option α) : Document → Option (List α)
  | array items => items.mapM decode
  | _ => none

/-- A value that may be `null`. -/
def optional? {α : Type} (decode : Document → Option α) : Document → Option (Option α)
  | null => some none
  | document => (decode document).map some

/-- A field that must be there. -/
def required? {α : Type} (decode : Document → Option α) (field : Option Document) : Option α :=
  field.bind decode

/-- A field that has a value of its own when it is missing. -/
def defaulted? {α : Type} (missing : α) (decode : Document → Option α) :
    Option Document → Option α
  | none => some missing
  | some document => decode document

/-- Whether the document can be read in full with no more than this much nesting. -/
def isPlain (limit : Nat) (document : Document) : Bool :=
  document.isReadable && document.depth ≤ limit

end Document

end Flowchart
