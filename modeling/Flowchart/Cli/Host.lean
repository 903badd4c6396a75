import Flowchart.Console

/-!
# Hosts

A host is the part of the world that the program can touch: it reads files by
their paths, reads lines, and writes to two streams. The program is the same over
every host. One host lies in memory, where a whole run of the program is a value.
-/

namespace Flowchart.Cli

/-- What the program can do to the world. -/
structure Host (m : Type → Type) where
  /-- The text of a file, or the reason why it cannot be read. -/
  readFile : (path : String) → m (Except String String)
  /-- The next line of input with its end, if there is one. -/
  readLine : m (Option String)
  write : (text : String) → m Unit
  /-- Writes a line for the eyes of whoever started the program. -/
  warn : (line : String) → m Unit

/-- A line without the characters that end lines. -/
def chomp (line : String) : String :=
  String.ofList (line.toList.reverse.dropWhile fun c => c = '\n' || c = '\r').reverse

/-- The host as a console: a prompt is written before a line is read, and the end
of the input closes the session. -/
@[specialize]
def Host.console {m : Type → Type} [Monad m] (host : Host m) (session : String) : Console m where
  write line := do
    host.write (line ++ "\n")
    pure (.ok ())
  ask prompt := do
    host.write (prompt ++ " ")
    match ← host.readLine with
    | some line => pure (.ok (chomp line))
    | none => pure (.error (.sessionClosed session))

/-- A host in memory. -/
structure Memory where
  /-- The paths and texts of the files; of two with one path the later counts. -/
  files : List (String × String)
  /-- The input that has not been read. -/
  input : List Char
  output : String
  warnings : String
  deriving DecidableEq, Repr

namespace Memory

def start (files : List (String × String)) (input : String) : Memory :=
  ⟨files, input.toList, "", ""⟩

/-- The text of a file. -/
def readFile (memory : Memory) (path : String) : Except String String :=
  match memory.files.reverse.find? (·.1 = path) with
  | some file => .ok file.2
  | none => .error "No such file or directory (os error 2)"

/-- The next line with its end, and the memory without it. -/
def readLine (memory : Memory) : Option String × Memory :=
  match memory.input with
  | [] => (none, memory)
  | input =>
    let line := input.takeWhile (· ≠ '\n')
    match input.dropWhile (· ≠ '\n') with
    | [] => (some (String.ofList line), { memory with input := [] })
    | ending :: rest => (some (String.ofList (line ++ [ending])), { memory with input := rest })

/-- The memory as a host. -/
def host : Host (StateM Memory) where
  readFile path := fun memory => (memory.readFile path, memory)
  readLine := fun memory => memory.readLine
  write text := fun memory => ((), { memory with output := memory.output ++ text })
  warn line := fun memory => ((), { memory with warnings := memory.warnings ++ line ++ "\n" })

end Memory

end Flowchart.Cli
