import Flowchart.Document.Numeral

/-!
# Reading documents

A reader takes a document from the front of a text and returns it with what comes
after it. Strings are read in two steps: first the units that the text writes, of
which an escape can be half of a surrogate pair, and then the characters that the
units name. Only the second step can find a string unreadable; a control character
or an unknown escape is a fault of the text itself.

The readers of values, items and fields call each other, and a bound on the number
of calls, twice the length of the text, ends the recursion.
-/

namespace Flowchart.Document

/-- The blanks of documents. -/
def isSpace (c : Char) : Bool :=
  c = ' ' || c = '\t' || c = '\n' || c = '\r'

def skipSpace (text : List Char) : List Char :=
  text.dropWhile isSpace

def openBrace : Char := '\x7b'

def closeBrace : Char := '\x7d'

/-! ## Strings -/

/-- The value of a hexadecimal digit. -/
def hexDigit? (c : Char) : Option Nat :=
  if c.isDigit then some (c.toNat - '0'.toNat)
  else if 'a' ≤ c ∧ c ≤ 'f' then some (c.toNat - 'a'.toNat + 10)
  else if 'A' ≤ c ∧ c ≤ 'F' then some (c.toNat - 'A'.toNat + 10)
  else none

/-- The value of four hexadecimal digits. -/
def hex4? (a b c d : Char) : Option Nat :=
  match hexDigit? a, hexDigit? b, hexDigit? c, hexDigit? d with
  | some a, some b, some c, some d => some (((a * 16 + b) * 16 + c) * 16 + d)
  | _, _, _, _ => none

/-- The character that a backslash and a letter stand for. -/
def escaped? : Char → Option Char
  | '"' => some '"'
  | '\\' => some '\\'
  | '/' => some '/'
  | 'b' => some '\x08'
  | 'f' => some '\x0c'
  | 'n' => some '\n'
  | 'r' => some '\r'
  | 't' => some '\t'
  | _ => none

/-- A unit in front of the units that follow. -/
def unitAhead (unit : Nat) (cut : List Nat × List Char) : List Nat × List Char :=
  (unit :: cut.1, cut.2)

/-- The units of a string after its opening quote, up to the closing one. -/
def cutUnits? : List Char → Option (List Nat × List Char)
  | [] => none
  | '"' :: rest => some ([], rest)
  | '\\' :: 'u' :: a :: b :: c :: d :: rest =>
    match hex4? a b c d with
    | some unit => (cutUnits? rest).map (unitAhead unit)
    | none => none
  | '\\' :: c :: rest =>
    match escaped? c with
    | some c => (cutUnits? rest).map (unitAhead c.toNat)
    | none => none
  | c :: rest => if c.toNat < 0x20 then none else (cutUnits? rest).map (unitAhead c.toNat)

def isHighHalf (unit : Nat) : Bool :=
  0xd800 ≤ unit && unit < 0xdc00

def isLowHalf (unit : Nat) : Bool :=
  0xdc00 ≤ unit && unit < 0xe000

/-- The characters that units name, if every half has its other half. -/
def joinUnits? : List Nat → Option (List Char)
  | [] => some []
  | [unit] => if isHighHalf unit || isLowHalf unit then none else some [Char.ofNat unit]
  | unit :: next :: rest =>
    if isHighHalf unit then
      -- each half carries ten bits of what lies above the first plane
      if isLowHalf next then
        (joinUnits? rest).map
          (Char.ofNat (0x10000 + (unit - 0xd800) * 0x400 + (next - 0xdc00)) :: ·)
      else none
    else if isLowHalf unit then none
    else (joinUnits? (next :: rest)).map (Char.ofNat unit :: ·)

/-- The string that units name, if they name one. -/
def stringOfUnits? (units : List Nat) : Option String :=
  (joinUnits? units).map String.ofList

/-! ## Values -/

/-- The document of an array of parts: every part stands on its own. -/
def ofItems (cut : List Document × List Char) : Document × List Char :=
  (array cut.1, cut.2)

/-- The document of an object, which needs a name for every field. -/
def ofFields (cut : List (Option String × Document) × List Char) : Document × List Char :=
  let named := cut.1.mapM fun (name, value) => name.map fun name => (name, value)
  (match named with
    | some fields => object fields
    | none => unreadable, cut.2)

def itemAhead {α : Type} (item : α) (cut : List α × List Char) : List α × List Char :=
  (item :: cut.1, cut.2)

mutual

/-- The value at the front of a text, which starts with no blanks. -/
def cutValue? : (fuel : Nat) → List Char → Option (Document × List Char)
  | 0, _ => none
  | fuel + 1, text =>
    match text with
    | 'n' :: 'u' :: 'l' :: 'l' :: rest => some (null, rest)
    | 't' :: 'r' :: 'u' :: 'e' :: rest => some (bool true, rest)
    | 'f' :: 'a' :: 'l' :: 's' :: 'e' :: rest => some (bool false, rest)
    | '"' :: rest =>
      (cutUnits? rest).map fun cut =>
        (match stringOfUnits? cut.1 with
          | some s => str s
          | none => unreadable, cut.2)
    | '[' :: rest =>
      match skipSpace rest with
      | ']' :: rest => some (array [], rest)
      | rest => (cutItems? fuel rest).map ofItems
    | c :: rest =>
      if c = openBrace then
        match skipSpace rest with
        | d :: more =>
          if d = closeBrace then some (object [], more)
          else (cutFields? fuel (d :: more)).map ofFields
        | [] => none
      else
        (cutNumeral? (c :: rest)).map fun cut => (cut.1.document, cut.2)
    | [] => none

/-- The items of an array after its bracket or a comma, up to the closing bracket. -/
def cutItems? : (fuel : Nat) → List Char → Option (List Document × List Char)
  | 0, _ => none
  | fuel + 1, text =>
    match cutValue? fuel (skipSpace text) with
    | none => none
    | some (item, rest) =>
      match skipSpace rest with
      | ',' :: rest => (cutItems? fuel rest).map (itemAhead item)
      | ']' :: rest => some ([item], rest)
      | _ => none

/-- The fields of an object after its brace or a comma, up to the closing brace. -/
def cutFields? : (fuel : Nat) → List Char →
    Option (List (Option String × Document) × List Char)
  | 0, _ => none
  | fuel + 1, text =>
    match skipSpace text with
    | '"' :: rest =>
      match cutUnits? rest with
      | none => none
      | some (units, rest) =>
        match skipSpace rest with
        | ':' :: rest =>
          match cutValue? fuel (skipSpace rest) with
          | none => none
          | some (value, rest) =>
            let field := (stringOfUnits? units, value)
            match skipSpace rest with
            | c :: rest =>
              if c = ',' then (cutFields? fuel rest).map (itemAhead field)
              else if c = closeBrace then some ([field], rest)
              else none
            | [] => none
        | _ => none
    | _ => none

end

/-- The document of a whole text, which may have blanks around it and nothing else. -/
def ofChars? (text : List Char) : Option Document :=
  match cutValue? (2 * text.length + 2) (skipSpace text) with
  | none => none
  | some (document, rest) => if (skipSpace rest).isEmpty then some document else none

/-- The document of a whole text. -/
def ofText? (text : String) : Option Document :=
  ofChars? text.toList

end Flowchart.Document
