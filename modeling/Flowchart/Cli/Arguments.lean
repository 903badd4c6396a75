/-!
# Words of a command line

The words after a command are options and operands. An option with a value takes it
from the same word, after an equals sign, or from the next word, which then must not
look like an option. Short switches may share one word. The word `--` ends the
options: what comes after it are operands, whatever they look like.
-/

namespace Flowchart.Cli

/-- What the words of a command line say. -/
structure Arguments where
  operands : List String
  /-- The options that have values, in order, each with its value. -/
  values : List (String × String)
  /-- The switches, in order. -/
  switches : List String
  deriving DecidableEq, Repr

namespace Arguments

def empty : Arguments := ⟨[], [], []⟩

/-- Whether the option was given at most once. -/
def atMostOnce (a : Arguments) (name : String) : Bool :=
  (a.values.filter (·.1 = name)).length + a.switches.count name ≤ 1

/-- The values of an option, in order. -/
def valuesOf (a : Arguments) (name : String) : List String :=
  (a.values.filter (·.1 = name)).map (·.2)

def value? (a : Arguments) (name : String) : Option String :=
  (a.valuesOf name).head?

def has (a : Arguments) (name : String) : Bool :=
  a.switches.contains name

def addOperand (a : Arguments) (word : String) : Arguments :=
  { a with operands := a.operands ++ [word] }

def addValue (a : Arguments) (name value : String) : Arguments :=
  { a with values := a.values ++ [(name, value)] }

def addSwitch (a : Arguments) (name : String) : Arguments :=
  { a with switches := a.switches ++ [name] }

end Arguments

/-- The options that a command knows. -/
structure Options where
  /-- The names of the options that have a value, without dashes. -/
  valued : List String
  /-- The names of the switches, without dashes. -/
  switches : List String
  /-- The switch that a single letter stands for. -/
  short? : Char → Option String

/-- The kind of a word, by its dashes. -/
inductive Word where
  | operand
  /-- Two dashes and nothing else. -/
  | terminator
  /-- A name after two dashes, and the value after an equals sign, if there is one. -/
  | long (name : String) (attached : Option String)
  /-- Letters after one dash. -/
  | short (letters : List Char)
  deriving DecidableEq, Repr

/-- Cuts the text after two dashes at the first equals sign. -/
def cutAttached (text : List Char) : String × Option String :=
  let name := String.ofList (text.takeWhile (· ≠ '='))
  match text.dropWhile (· ≠ '=') with
  | [] => (name, none)
  | _ :: value => (name, some (String.ofList value))

/-- The kind of a word. A single dash is an operand. -/
def Word.of (word : String) : Word :=
  match word.toList with
  | ['-', '-'] => terminator
  | '-' :: '-' :: text => long (cutAttached text).1 (cutAttached text).2
  | '-' :: letter :: letters => short (letter :: letters)
  | _ => operand

/-- Reads the words of a command with the given options. There is no result if a
word is not understood. -/
def Options.read? (options : Options) : Arguments → List String → Option Arguments
  | a, [] => some a
  | a, word :: rest =>
    match Word.of word with
    | .operand => options.read? (a.addOperand word) rest
    | .terminator => some (rest.foldl Arguments.addOperand a)
    | .short letters =>
      match letters.mapM options.short? with
      | some names => options.read? (names.foldl Arguments.addSwitch a) rest
      | none => none
    | .long name attached =>
      if options.valued.contains name then
        match attached, rest with
        | some value, rest => options.read? (a.addValue name value) rest
        | none, value :: rest =>
          if Word.of value = .operand then options.read? (a.addValue name value) rest else none
        | none, [] => none
      else if options.switches.contains name && attached.isNone then
        options.read? (a.addSwitch name) rest
      else none

end Flowchart.Cli
