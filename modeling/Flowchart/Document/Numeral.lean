import Flowchart.Decimal.Numeral
import Flowchart.Document.Basic

/-!
# Numbers in documents

The grammar of a number is a sign, a whole part without needless zeros, a fraction
and an exponent. A whole number that fits sixty-four bits is an integer; any other
number is a double.

The double is found in two roundings: as many digits as fit sixty-four bits are
taken as an integer and rounded to a double, which is then multiplied or divided by
a power of ten. The result can differ from the nearest double in the last place, and
documents are read that way consistently. A number beyond all doubles has no value.
-/

namespace Flowchart.Document

/-- A number as it is written. -/
structure Numeral where
  negative : Bool
  whole : List Char
  /-- The digits after the point, none if there is no point. -/
  fraction : List Char
  /-- The sign and the digits of the exponent. -/
  exponent : Option (Bool × List Char)
  deriving DecidableEq, Repr

/-! ## Grammar -/

/-- The whole part: a zero alone, or digits that start with another one. -/
def cutWhole? : List Char → Option (List Char × List Char)
  | [] => none
  | c :: rest =>
    if c = '0' then
      match rest with
      | d :: _ => if d.isDigit then none else some (['0'], rest)
      | [] => some (['0'], [])
    else if c.isDigit then
      some (c :: rest.takeWhile Char.isDigit, rest.dropWhile Char.isDigit)
    else none

/-- A row of digits that must not be empty. -/
def cutDigits? (text : List Char) : Option (List Char × List Char) :=
  match text.takeWhile Char.isDigit with
  | [] => none
  | digits => some (digits, text.dropWhile Char.isDigit)

/-- The fraction, if a point stands first. -/
def cutFraction? : List Char → Option (List Char × List Char)
  | '.' :: rest => cutDigits? rest
  | rest => some ([], rest)

/-- The exponent, if its mark stands first. -/
def cutExponent? : List Char → Option (Option (Bool × List Char) × List Char)
  | [] => some (none, [])
  | c :: rest =>
    if c = 'e' ∨ c = 'E' then
      let (negative, digits) := Decimal.splitSign rest
      (cutDigits? digits).map fun cut => (some (negative, cut.1), cut.2)
    else some (none, c :: rest)

/-- A number without its sign. -/
def cutUnsigned? (negative : Bool) (text : List Char) : Option (Numeral × List Char) :=
  match cutWhole? text with
  | none => none
  | some (whole, rest) =>
    match cutFraction? rest with
    | none => none
    | some (fraction, rest) =>
      match cutExponent? rest with
      | none => none
      | some (exponent, rest) => some (⟨negative, whole, fraction, exponent⟩, rest)

/-- The number at the front of a text, and what comes after it. -/
def cutNumeral? : List Char → Option (Numeral × List Char)
  | '-' :: rest => cutUnsigned? true rest
  | text => cutUnsigned? false text

/-! ## Value -/

/-- The integers that a word of sixty-four bits without a sign can hold are less. -/
def wordLimit : Nat := 0x10000000000000000

/-- Appends digits to a word while it can hold them: the word, and how many digits
there were from the first that did not fit. -/
def accumulate : Nat → List Char → Nat × Nat
  | word, [] => (word, 0)
  | word, c :: rest =>
    let longer := 10 * word + (c.toNat - '0'.toNat)
    if longer < wordLimit then accumulate longer rest else (word, rest.length + 1)

/-- Divides by a power of ten, by at most `10 ^ 308` at a time. -/
def divideByPower (x : Float) (power : Nat) : Float :=
  if power ≤ 308 then x / Float.ofScientific 1 false power
  else if x == 0 then x
  else divideByPower (x / Float.ofScientific 1 false 308) (power - 308)
termination_by power

/-- A word times a power of ten, unless that is beyond all doubles. -/
def scaled? (word : Nat) (power : Int) : Option Float :=
  let x := Float.ofNat word
  if power < 0 then some (divideByPower x power.natAbs)
  else if 308 < power then (if word = 0 then some x else none)
  else
    let product := x * Float.ofScientific 1 false power.toNat
    if Decimal.isFinite product then some product else none

namespace Numeral

def signed (numeral : Numeral) (x : Float) : Float :=
  if numeral.negative then -x else x

/-- The word that holds the leading digits, and the power of ten that goes with it
when the exponent is left aside. -/
def leading (numeral : Numeral) : Nat × Int :=
  let (word, dropped) := accumulate 0 numeral.whole
  let (word, ignored) := accumulate word numeral.fraction
  (word, (dropped : Int) - (numeral.fraction.length - ignored : Nat))

/-- An exponent from here on is beyond what a number can use. -/
def exponentLimit : Nat := 0x80000000

/-- The double that the number stands for, if there is one. -/
def double? (numeral : Numeral) : Option Float :=
  let (word, power) := numeral.leading
  match numeral.exponent with
  | none => (scaled? word power).map numeral.signed
  | some (negative, digits) =>
    let exponent := Nat.ofDigitChars 10 digits 0
    if exponentLimit ≤ exponent then
      if word ≠ 0 ∧ !negative then none else some (numeral.signed 0)
    else
      let power := if negative then power - exponent else power + exponent
      (scaled? word power).map numeral.signed

/-- The integer that the number stands for, if it is one: it has neither fraction
nor exponent, fits sixty-four bits, and is not the negative zero. -/
def int? (numeral : Numeral) : Option Int :=
  let n := Nat.ofDigitChars 10 numeral.whole 0
  if numeral.fraction ≠ [] ∨ numeral.exponent ≠ none then none
  else if numeral.negative then (if 0 < n ∧ 2 * n ≤ wordLimit then some (-n) else none)
  else (if n < wordLimit then some n else none)

/-- The document that the number stands for. -/
def document (numeral : Numeral) : Document :=
  match numeral.int? with
  | some n => number (.int n)
  | none =>
    match numeral.double? with
    | some x => number (.double x)
    | none => unreadable

end Numeral

end Flowchart.Document
