import Flowchart.Decimal.Layout
import Flowchart.Document.Basic

/-!
# Writing documents

A document has two written forms: compact, without any blanks, and indented, with
one item or field a line and two blanks for each level. Both write the same
strings and numbers. Doubles that are no numbers have no written form and become
`null`.
-/

namespace Flowchart.Document

/-- A hexadecimal digit in lower case. -/
def hexChar (n : Nat) : Char :=
  Nat.digitChar n

/-- A character as it stands in a string. -/
def escape (c : Char) : List Char :=
  match c with
  | '"' => ['\\', '"']
  | '\\' => ['\\', '\\']
  | '\x08' => ['\\', 'b']
  | '\x0c' => ['\\', 'f']
  | '\n' => ['\\', 'n']
  | '\r' => ['\\', 'r']
  | '\t' => ['\\', 't']
  | c =>
    if c.toNat < 0x20 then
      ['\\', 'u', '0', '0', hexChar (c.toNat / 16), hexChar (c.toNat % 16)]
    else [c]

/-- A string between its quotes. -/
def quote (text : String) : List Char :=
  '"' :: text.toList.flatMap escape ++ ['"']

/-- An integer in decimal digits. -/
def integer (n : Int) : List Char :=
  Decimal.sign (n < 0) ++ Nat.toDigits 10 n.natAbs

/-- A number as it stands in a document. -/
def Number.chars : Number → List Char
  | .int n => integer n
  | .double x =>
    if Decimal.isFinite x then Decimal.Layout.document.text x else "null".toList

/-- The parts with a separator between each two. -/
def separated (separator : List Char) (parts : List (List Char)) : List Char :=
  separator.intercalate parts

/-- What both forms write for documents without parts. -/
def leaf : Document → List Char
  | bool b => if b then "true".toList else "false".toList
  | number n => Number.chars n
  | str text => quote text
  | _ => "null".toList

/-! ## The compact form -/

mutual

/-- The document without any blanks. -/
def compact : Document → List Char
  | array items => '[' :: separated [','] (compactItems items) ++ [']']
  | object fields => '\x7b' :: separated [','] (compactFields fields) ++ ['\x7d']
  | document => leaf document

def compactItems : List Document → List (List Char)
  | [] => []
  | item :: rest => compact item :: compactItems rest

def compactFields : List (String × Document) → List (List Char)
  | [] => []
  | (name, value) :: rest => (quote name ++ ':' :: compact value) :: compactFields rest

end

/-! ## The indented form -/

/-- The start of a line at a level. -/
def newLine (level : Nat) : List Char :=
  '\n' :: List.replicate (2 * level) ' '

/-- Parts between brackets, each on a line of its own one level deeper. -/
def block (opening closing : Char) (level : Nat) (parts : List (List Char)) : List Char :=
  match parts with
  | [] => [opening, closing]
  | _ =>
    opening :: newLine (level + 1) ++ separated (',' :: newLine (level + 1)) parts
      ++ newLine level ++ [closing]

mutual

/-- The document with a line for each part, at the given level. -/
def indented : (level : Nat) → Document → List Char
  | level, array items => block '[' ']' level (indentedItems (level + 1) items)
  | level, object fields => block '\x7b' '\x7d' level (indentedFields (level + 1) fields)
  | _, document => leaf document

def indentedItems : (level : Nat) → List Document → List (List Char)
  | _, [] => []
  | level, item :: rest => indented level item :: indentedItems level rest

def indentedFields : (level : Nat) → List (String × Document) → List (List Char)
  | _, [] => []
  | level, (name, value) :: rest =>
    (quote name ++ ':' :: ' ' :: indented level value) :: indentedFields level rest

end

/-- The text of a document in the compact form. -/
def compactText (document : Document) : String :=
  String.ofList document.compact

/-- The text of a document in the indented form. -/
def indentedText (document : Document) : String :=
  String.ofList (document.indented 0)

end Flowchart.Document
