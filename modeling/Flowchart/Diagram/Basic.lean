import Flowchart.Block
import Flowchart.Environment

/-!
# Diagrams

A diagram declares variables, holds blocks, and names the block at which each of
its threads starts. Names are declared once and identifiers used once; both are
part of the type, and `Diagram.ofParts` is where they are checked. The blocks are
kept by ascending identifier, so that diagrams with the same parts are equal.

Links are another matter: a diagram may name blocks that it does not hold.
`Diagram.validate` lists such links, and only diagrams that are read from documents
are refused for them.
-/

namespace Flowchart

/-- A flowchart. -/
structure Diagram where
  declared : List Variable
  blocks : Table BlockId Block
  /-- The entry block of each thread. -/
  threads : List BlockId
  names_nodup : (declared.map (·.name)).Nodup
  /-- Each block is listed under its own identifier. -/
  id_of_mem : ∀ entry ∈ blocks.entries, entry.2.id = entry.1

namespace Diagram

instance : DecidableEq Diagram := fun a b =>
  if h : a.declared = b.declared ∧ a.blocks = b.blocks ∧ a.threads = b.threads then
    isTrue (by cases a; cases b; simp_all)
  else
    isFalse fun e => h (by rw [e]; exact ⟨rfl, rfl, rfl⟩)

/-! ## Putting a diagram together -/

/-- The first name of the list that stands in it before already. -/
def repeatedName? (seen : List String) : List String → Option String
  | [] => none
  | name :: rest => if name ∈ seen then some name else repeatedName? (name :: seen) rest

theorem nodup_of_repeatedName? {seen names : List String}
    (h : repeatedName? seen names = none) : names.Nodup ∧ ∀ name ∈ names, name ∉ seen := by
  induction names generalizing seen with
  | nil => simp
  | cons name rest ih =>
    rw [repeatedName?] at h
    split at h
    · simp at h
    · next fresh =>
      obtain ⟨nodup, apart⟩ := ih h
      refine ⟨List.nodup_cons.mpr ⟨fun mem => apart name mem (by simp), nodup⟩, ?_⟩
      intro other mem
      rcases List.mem_cons.mp mem with e | mem
      · rw [e]; exact fresh
      · exact fun inSeen => apart other mem (List.mem_cons_of_mem _ inSeen)

/-- Blocks under their own identifiers. -/
abbrev Index := { table : Table BlockId Block // ∀ entry ∈ table.entries, entry.2.id = entry.1 }

theorem id_of_mem_place {block : Block} {entries : List (BlockId × Block)}
    (h : ∀ entry ∈ entries, entry.2.id = entry.1) :
    ∀ entry ∈ Table.place block.id block entries, entry.2.id = entry.1 := by
  induction entries with
  | nil => simp [Table.place]
  | cons head rest ih =>
    have ih := ih fun entry mem => h entry (List.mem_cons_of_mem _ mem)
    obtain ⟨id, other⟩ := head
    rw [Table.place]
    split
    · intro entry mem
      rcases List.mem_cons.mp mem with e | mem
      · rw [e]
      · exact h entry mem
    · split
      · intro entry mem
        rcases List.mem_cons.mp mem with e | mem
        · rw [e]; exact h _ (by simp)
        · exact ih entry mem
      · next notBelow notAbove =>
        intro entry mem
        rcases List.mem_cons.mp mem with e | mem
        · rw [e]
          exact (Table.Ordered.connected _ _ notAbove notBelow).symm
        · exact h entry (List.mem_cons_of_mem _ mem)

/-- Adds blocks to an index, up to the first identifier that is used twice. -/
def addBlocks (index : Index) : List Block → Except Error Index
  | [] => .ok index
  | block :: rest =>
    if index.1.contains block.id then
      .error (.invalidDiagram (.repeatedBlock block.id))
    else
      addBlocks ⟨index.1.insert block.id block, id_of_mem_place index.2⟩ rest

/-- The diagram with the given parts. A name declared twice is reported before an
identifier used twice. -/
def ofParts (declared : List Variable) (blocks : List Block) (threads : List BlockId) :
    Except Error Diagram :=
  match repeated : repeatedName? [] (declared.map (·.name)) with
  | some name => .error (.invalidDiagram (.repeatedVariable name))
  | none =>
    match addBlocks ⟨Table.empty, by simp [Table.empty]⟩ blocks with
    | .error e => .error e
    | .ok index =>
      .ok ⟨declared, index.1, threads, (nodup_of_repeatedName? repeated).1, index.2⟩

/-! ## Looking into a diagram -/

/-- The block with an identifier. -/
def block? (d : Diagram) (id : BlockId) : Option Block :=
  d.blocks.get? id

/-- The block with an identifier, or the error that there is none. -/
def block (d : Diagram) (id : BlockId) : Except Error Block :=
  match d.block? id with
  | some block => .ok block
  | none => .error (.unknownBlock id)

def contains (d : Diagram) (id : BlockId) : Bool :=
  d.blocks.contains id

/-- The declaration of a name. -/
def declaration? (d : Diagram) (name : String) : Option Variable :=
  d.declared.find? (·.name = name)

/-- The blocks, by ascending identifier. -/
def blockList (d : Diagram) : List Block :=
  d.blocks.entries.map (·.2)

/-! ## Links -/

/-- A reference from somewhere in a diagram to a block. -/
inductive Link where
  | entry (target : BlockId)
  | between (source target : BlockId)
  deriving DecidableEq, Repr

def Link.target : Link → BlockId
  | entry target | between _ target => target

def Link.text : Link → String
  | entry target => "thread entry " ++ target.text
  | between source target => source.text ++ " -> " ++ target.text

/-- Every reference of the diagram. -/
def links (d : Diagram) : List Link :=
  d.threads.map .entry ++
    d.blockList.flatMap fun block => block.successors.map (.between block.id)

/-- The references to blocks that the diagram does not hold. -/
def dangling (d : Diagram) : List Link :=
  d.links.filter fun link => !d.contains link.target

/-- Texts in ascending order, each once. -/
def ordered (texts : List String) : List String :=
  (Table.ofList (texts.map fun text => (text, ()))).keys

/-- Succeeds when every reference leads to a block, and otherwise names all that do
not. -/
def validate (d : Diagram) : Except Error Unit :=
  match d.dangling with
  | [] => .ok ()
  | links => .error (.invalidDiagram (.unresolvedLinks (ordered (links.map Link.text))))

end Diagram

end Flowchart
