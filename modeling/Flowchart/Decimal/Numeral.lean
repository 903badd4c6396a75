import Flowchart.Decimal.Shortest

/-!
# Reading numbers

An integer is an optional sign and digits, and must fit sixty-four bits. A
double is an optional sign and digits with at most one point among them, then an
optional exponent; the names of infinity and of the missing number are read in
any letter case. Reading rounds once, to the nearest double.
-/

namespace Flowchart.Decimal

/-- The number that a nonempty row of digits denotes. -/
def readNat? (digits : List Char) : Option Nat :=
  if digits ≠ [] ∧ digits.all Char.isDigit then some (Nat.ofDigitChars 10 digits 0) else none

/-- A sign in front, if there is one, and the rest. -/
def splitSign : List Char → Bool × List Char
  | '-' :: rest => (true, rest)
  | '+' :: rest => (false, rest)
  | rest => (false, rest)

/-- The integer as a word of sixty-four bits, if it fits. -/
def int64? (n : Int) : Option Int64 :=
  if Int64.minValue.toInt ≤ n ∧ n ≤ Int64.maxValue.toInt then some (Int64.ofInt n) else none

/-- Digits with an optional sign. -/
def readInteger? (text : List Char) : Option Int :=
  let (negative, digits) := splitSign text
  (readNat? digits).map fun n => if negative then -n else n

/-- Digits with an optional sign that fit sixty-four bits. -/
def readInt64? (text : List Char) : Option Int64 :=
  (readInteger? text).bind int64?

def infinity : Float := Float.ofBits 0x7ff0000000000000

/-- Not a number. -/
def missing : Float := Float.ofBits 0x7ff8000000000000

/-- The double nearest to `significand * 10 ^ power`. Numbers from `10 ^ 310` on
are beyond all doubles and numbers below `10 ^ -330` are next to none but zero. -/
def nearestDouble (significand : Nat) (power : Int) : Float :=
  let top : Int := digitCount significand + power
  if significand = 0 ∨ top < -330 then 0
  else if 310 < top then infinity
  else Float.ofScientific significand (power < 0) power.natAbs

/-- The power of ten that an exponent adds; no text at all adds nothing. -/
def readExponent? : List Char → Option Int
  | [] => some 0
  | mark :: text => if mark = 'e' ∨ mark = 'E' then readInteger? text else none

/-- A double without its sign, in digits. -/
def readMagnitude? (text : List Char) : Option Float :=
  let whole := text.takeWhile Char.isDigit
  let rest := text.dropWhile Char.isDigit
  let (fraction, rest) := match rest with
    | '.' :: more => (more.takeWhile Char.isDigit, more.dropWhile Char.isDigit)
    | _ => ([], rest)
  match readNat? (whole ++ fraction), readExponent? rest with
  | some significand, some power => some (nearestDouble significand (power - fraction.length))
  | _, _ => none

/-- The text with the capital letters of ASCII made small. -/
def lowerAscii (text : List Char) : List Char :=
  text.map Char.toLower

/-- A double without its sign. -/
def readUnsigned? (text : List Char) : Option Float :=
  let word := lowerAscii text
  if word = "inf".toList ∨ word = "infinity".toList then some infinity
  else if word = "nan".toList then some missing
  else readMagnitude? text

/-- A double with an optional sign. -/
def readDouble? (text : List Char) : Option Float :=
  let (negative, magnitude) := splitSign text
  (readUnsigned? magnitude).map fun x => if negative then -x else x

end Flowchart.Decimal
