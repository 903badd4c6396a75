import Flowchart.Decimal.Shortest

/-!
# How digits are laid out

A layout is the list of decisions that turn the digits of a double into text:
which way a tie between candidates goes, for which powers of ten the number is
written without an exponent, and whether a whole number keeps a fraction. Fixed
places need no digits of the shortest form: they round the exact value once.
-/

namespace Flowchart.Decimal

/-- The decisions of one written form of doubles. -/
structure Layout where
  tie : Tie
  /-- The powers of ten of the first digit that are written without an exponent. -/
  positional : Int → Bool
  /-- What a whole number without an exponent ends in. -/
  wholeEnd : List Char

/-- No exponent ever, and a whole number is written bare. -/
def Layout.plain : Layout := ⟨.up, fun _ => true, []⟩

/-- No exponent from `10 ^ -5` up to below `10 ^ 16`; whole numbers end in `.0`. -/
def Layout.document : Layout := ⟨.even, fun power => -5 ≤ power && power < 16, ['.', '0']⟩

def zeros (count : Nat) : List Char :=
  List.replicate count '0'

/-- The digits with the point in place, and as many zeros as it takes to reach it. -/
def Digits.positional (wholeEnd : List Char) (d : Digits) : List Char :=
  if d.point ≤ 0 then
    '0' :: '.' :: zeros (-d.point).toNat ++ d.digits
  else
    let before := d.point.toNat
    if d.digits.length ≤ before then
      d.digits ++ zeros (before - d.digits.length) ++ wholeEnd
    else
      d.digits.take before ++ '.' :: d.digits.drop before

/-- One digit before the point, then the exponent with its sign. -/
def Digits.scientific (d : Digits) : List Char :=
  let power := d.point - 1
  let mantissa := match d.digits with
    | [] => ['0']
    | [digit] => [digit]
    | digit :: more => digit :: '.' :: more
  let mark := if power < 0 then '-' else '+'
  mantissa ++ 'e' :: mark :: Nat.toDigits 10 power.natAbs

/-- The magnitude in the given layout. -/
def Layout.magnitude (layout : Layout) (b : Binary) : List Char :=
  let digits := if b.significand = 0 then ⟨['0'], 1⟩ else b.shortest layout.tie
  if layout.positional (digits.point - 1) then digits.positional layout.wholeEnd
  else digits.scientific

/-- The minus sign of a negative number; zero has one too. -/
def sign (negative : Bool) : List Char :=
  if negative then ['-'] else []

/-- The names of the doubles that are no finite numbers. -/
def unusual : Bool → List Char
  | false => "inf".toList
  | true => "-inf".toList

/-- A double in the given layout. -/
def Layout.text (layout : Layout) (x : Float) : List Char :=
  match shape x with
  | .nan => "NaN".toList
  | .infinite negative => unusual negative
  | .finite b => sign b.negative ++ layout.magnitude b

/-- The quotient rounded to the nearest natural, a half to the even one. -/
def roundHalfEven (numerator denominator : Nat) : Nat :=
  let lower := numerator / denominator
  let rest := numerator % denominator
  if 2 * rest < denominator then lower
  else if denominator < 2 * rest then lower + 1
  else if lower % 2 = 0 then lower else lower + 1

/-- A count of the last place as a number with that many places. -/
def withPlaces (places count : Nat) : List Char :=
  let digits := Nat.toDigits 10 count
  -- at least one digit stands before the point
  let padded := zeros (places + 1 - digits.length) ++ digits
  let whole := padded.length - places
  if places = 0 then padded else padded.take whole ++ '.' :: padded.drop whole

/-- A double with a fixed number of places. -/
def fixed (places : Nat) (x : Float) : List Char :=
  match shape x with
  | .nan => "NaN".toList
  | .infinite negative => unusual negative
  | .finite b =>
    sign b.negative ++ withPlaces places (roundHalfEven (b.ratio.1 * Nat.pow 10 places) b.ratio.2)

end Flowchart.Decimal
