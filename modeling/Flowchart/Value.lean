import Flowchart.Decimal.Layout
import Flowchart.Decimal.Numeral
import Flowchart.Error
import Flowchart.Text.Blank

/-!
# Values

A value carries its own type. Coercions go to whichever type an operation needs
and fail by naming the value, its type and the wanted one; they never guess. Two
numbers of different type are compared as doubles, a truth value agrees with a
number when both are true or both false, and text agrees only with text.
-/

namespace Flowchart

/-- What a variable holds. -/
inductive Value where
  | int (n : Int64)
  | double (x : Float)
  | str (text : String)
  | bool (b : Bool)
  deriving DecidableEq

instance : Inhabited Value := ⟨.bool false⟩

/-- The value of a variable of this type before anything is assigned to it. -/
def DataType.initial : DataType → Value
  | .int => .int 0
  | .double => .double 0
  | .str => .str ""
  | .bool => .bool false

/-- The double nearest to an integer, a half to the even one. -/
def doubleOfInt (n : Int64) : Float :=
  Float.ofInt n.toInt

/-- Whether a double counts as true: all do but the two zeros. -/
def nonzero (x : Float) : Bool :=
  x != 0

namespace Value

def type : Value → DataType
  | int _ => .int
  | double _ => .double
  | str _ => .str
  | bool _ => .bool

def isNumeric : Value → Bool
  | int _ | double _ => true
  | str _ | bool _ => false

/-- The exact digits of a whole double, and the shortest digits of any other. -/
def doubleText (x : Float) : List Char :=
  match Decimal.shape x with
  | .finite b => if b.isWhole then Decimal.fixed 1 x else Decimal.Layout.plain.text x
  | _ => Decimal.Layout.plain.text x

/-- The value as text. -/
def text : Value → String
  | int n => toString n.toInt
  | double x => String.ofList (doubleText x)
  | str text => text
  | bool b => if b then "true" else "false"

/-- The value as it is written in an expression: only text needs quotes. -/
def literal (v : Value) : String :=
  match v with
  | str text => "\"" ++ text ++ "\""
  | _ => v.text

/-- The failure to make the value one of another type. -/
def coercionError (v : Value) (target : DataType) : Error :=
  .coercion v.text v.type target

/-- The truth value that a text spells, in any letter case. -/
def boolOfWord? (word : List Char) : Option Bool :=
  let lower := Decimal.lowerAscii word
  if lower = "true".toList then some true
  else if lower = "false".toList then some false
  else none

/-- The value as an integer. A double loses its fraction and stops at the ends
of the range. -/
def toInt (v : Value) : Except Error Int64 :=
  let parsed := match v with
    | int n => some n
    | double x =>
      match Decimal.shape x with
      | .finite b => some (Int64.ofIntClamp b.truncate)
      | _ => none
    | bool b => some (if b then 1 else 0)
    | str text => Decimal.readInt64? (Text.trim text.toList)
  match parsed with
  | some n => .ok n
  | none => .error (v.coercionError .int)

/-- The value as a double. -/
def toDouble (v : Value) : Except Error Float :=
  let parsed := match v with
    | int n => some (doubleOfInt n)
    | double x => some x
    | bool b => some (if b then 1 else 0)
    | str text => Decimal.readDouble? (Text.trim text.toList)
  match parsed with
  | some x => .ok x
  | none => .error (v.coercionError .double)

/-- The value as a truth value. -/
def toBool (v : Value) : Except Error Bool :=
  let parsed := match v with
    | bool b => some b
    | int n => some (n ≠ 0)
    | double x => some (nonzero x)
    | str text => boolOfWord? (Text.trim text.toList)
  match parsed with
  | some b => .ok b
  | none => .error (v.coercionError .bool)

/-- Whether two values agree, across types where that makes sense. -/
def agrees : Value → Value → Bool
  | int a, int b => a = b
  | double a, double b => a == b
  | str a, str b => a = b
  | bool a, bool b => a = b
  | int a, double b | double b, int a => doubleOfInt a == b
  | bool a, int n | int n, bool a => a = decide (n ≠ 0)
  | bool a, double x | double x, bool a => a = nonzero x
  | str _, _ | _, str _ => false

/-- What a line of input means: an integer if it reads as one, else a finite
double if it reads as one, else the line itself with its blanks. -/
def ofInput (line : String) : Value :=
  let trimmed := Text.trim line.toList
  match Decimal.readInt64? trimmed with
  | some n => int n
  | none =>
    match Decimal.readDouble? trimmed with
    | some x => if Decimal.isFinite x then double x else str line
    | none => str line

end Value

end Flowchart
