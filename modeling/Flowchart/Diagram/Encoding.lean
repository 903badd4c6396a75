import Flowchart.Diagram.Basic
import Flowchart.Document.Writer

/-!
# Diagrams as documents

The document of a diagram has three fields: the variables, the blocks by ascending
identifier, and the entries of the threads. Each of them may be missing when a
document is read, and then there are none. A diagram that is read has no dangling
links.
-/

namespace Flowchart

namespace Variable

def document (v : Variable) : Document :=
  .object [("name", .str v.name), ("type", .str v.type.name)]

/-- The type of a variable: its name, or an object with that one field, which is
`null`. -/
def type? : Document → Option DataType
  | .str name => DataType.ofName? name
  | .object [(name, .null)] => DataType.ofName? name
  | _ => none

def ofDocument? (document : Document) : Option Variable := do
  match ← document.fields? ["name", "type"] with
  | [name, type] =>
    return ⟨← Document.required? Document.str? name, ← Document.required? type? type⟩
  | _ => none

end Variable

namespace Diagram

def document (d : Diagram) : Document :=
  .object [
    ("variables", .array (d.declared.map Variable.document)),
    ("blocks", .array (d.blockList.map Block.document)),
    ("threads", .array (d.threads.map Block.idDocument))]

/-- The diagram as text. -/
def text (d : Diagram) : String :=
  d.document.indentedText

/-- The parts of the diagram that a document describes. -/
def parts? (document : Document) :
    Option (List Variable × List Block × List BlockId) := do
  match ← document.fields? ["variables", "blocks", "threads"] with
  | [declared, blocks, threads] =>
    return (← Document.defaulted? [] (Document.list? Variable.ofDocument?) declared,
      ← Document.defaulted? [] (Document.list? Block.ofDocument?) blocks,
      ← Document.defaulted? [] (Document.list? Block.id?) threads)
  | _ => none

/-- The diagram that a text describes. The text must be a document, its parts must
fit together, and every link must lead to a block. -/
def ofText (text : String) : Except Error Diagram :=
  match (Document.ofText? text).bind parts? with
  | none => .error (.malformedDocument none)
  | some (declared, blocks, threads) =>
    match ofParts declared blocks threads with
    | .error e => .error e
    | .ok d =>
      match d.validate with
      | .error e => .error e
      | .ok () => .ok d

end Diagram

end Flowchart
