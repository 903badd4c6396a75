import Flowchart.Document.Decode
import Flowchart.Error

/-!
# Blocks

A block is one node of a flowchart. It knows its own identifier and those of the
blocks that can follow it; what it does with an environment and a console is told
elsewhere.
-/

namespace Flowchart

/-- One node of a flowchart. -/
inductive Block where
  /-- Gives a variable the value of an expression, written `name = expression`. -/
  | assign (id next : BlockId) (expression : String)
  /-- Writes the line that a template stands for. -/
  | print (id next : BlockId) (template : String)
  /-- Asks for a line and puts it into a variable. -/
  | input (id next : BlockId) (name : String)
  /-- Goes one of two ways. -/
  | branch (id : BlockId) (condition : String) (whenTrue whenFalse : BlockId)
  /-- The head of a loop, which decides on every visit. -/
  | loop (id : BlockId) (condition : String) (body next : BlockId)
  /-- Does nothing; without a successor the thread ends here. -/
  | stop (id : BlockId) (next : Option BlockId)
  deriving DecidableEq, Repr

namespace Block

def id : Block → BlockId
  | assign id _ _ | print id _ _ | input id _ _ | branch id _ _ _ | loop id _ _ _ | stop id _ => id

/-- Every block that can follow, in the order of the document. -/
def successors : Block → List BlockId
  | assign _ next _ | print _ next _ | input _ next _ => [next]
  | branch _ _ whenTrue whenFalse => [whenTrue, whenFalse]
  | loop _ _ body next => [body, next]
  | stop _ next => next.toList

/-- The name of the kind of block in documents. -/
def kind : Block → String
  | assign .. => "assign"
  | print .. => "print"
  | input .. => "input"
  | branch .. => "condition"
  | loop .. => "while"
  | stop .. => "end"

/-! ## Documents -/

/-- An identifier as a document. -/
def idDocument (id : BlockId) : Document :=
  .nat id.toNat

/-- The fields of a block, the kind first. -/
def fields : Block → List (String × Document)
  | assign id next expression =>
    [("id", idDocument id), ("next", idDocument next), ("expression", .str expression)]
  | print id next template =>
    [("id", idDocument id), ("next", idDocument next), ("expression", .str template)]
  | input id next name =>
    [("id", idDocument id), ("next", idDocument next), ("variable", .str name)]
  | branch id condition whenTrue whenFalse =>
    [("id", idDocument id), ("expression", .str condition),
      ("trueBranch", idDocument whenTrue), ("falseBranch", idDocument whenFalse)]
  | loop id condition body next =>
    [("id", idDocument id), ("expression", .str condition), ("body", idDocument body),
      ("next", idDocument next)]
  | stop id none => [("id", idDocument id)]
  | stop id (some next) => [("id", idDocument id), ("next", idDocument next)]

def document (block : Block) : Document :=
  .object (("type", .str block.kind) :: block.fields)

/-- An identifier must fit thirty-two bits. -/
def id? (document : Document) : Option BlockId :=
  (document.natBelow? UInt32.size).map UInt32.ofNat

/-- A block of a known kind from the record of its other fields. -/
def ofRecord? (kind : String) (record : Document) : Option Block :=
  let step? (make : BlockId → BlockId → String → Block) (text : String) : Option Block := do
    match ← record.fields? ["id", "next", text] with
    | [id, next, text] =>
      return make (← Document.required? id? id) (← Document.required? id? next)
        (← Document.required? Document.str? text)
    | _ => none
  match kind with
  | "assign" => step? assign "expression"
  | "print" => step? print "expression"
  | "input" => step? input "variable"
  | "condition" => do
    match ← record.fields? ["id", "expression", "trueBranch", "falseBranch"] with
    | [id, condition, whenTrue, whenFalse] =>
      return branch (← Document.required? id? id) (← Document.required? Document.str? condition)
        (← Document.required? id? whenTrue) (← Document.required? id? whenFalse)
    | _ => none
  | "while" => do
    match ← record.fields? ["id", "expression", "body", "next"] with
    | [id, condition, body, next] =>
      return loop (← Document.required? id? id) (← Document.required? Document.str? condition)
        (← Document.required? id? body) (← Document.required? id? next)
    | _ => none
  | "end" => do
    match ← record.fields? ["id", "next"] with
    | [id, next] =>
      return stop (← Document.required? id? id)
        (← Document.defaulted? none (Document.optional? id?) next)
    | _ => none
  | _ => none

/-- How deep a block may be nested in itself: it stands two levels deep. -/
def depthLimit : Nat := Document.depthLimit - 2

/-- The block of a document. Its kind is the field `type` of an object, or the first
item of an array. All of it must be readable, fields that are skipped included. -/
def ofDocument? (document : Document) : Option Block :=
  if document.isPlain depthLimit then
    match document with
    | .object entries =>
      match entries.filter (·.1 = "type") with
      | [(_, .str kind)] => ofRecord? kind (.object (entries.filter (·.1 ≠ "type")))
      | _ => none
    | .array (.str kind :: items) => ofRecord? kind (.array items)
    | _ => none
  else none

end Block

end Flowchart
