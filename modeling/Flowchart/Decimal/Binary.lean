/-!
# Doubles taken apart

Every finite double is a sign, a natural significand and a power of two. All
printing and truncation in this library works on these three in exact
arithmetic, so that no step of it can round twice.
-/

namespace Flowchart.Decimal

/-- The number `± significand * 2 ^ exponent`. -/
structure Binary where
  negative : Bool
  significand : Nat
  exponent : Int
  deriving DecidableEq, Repr

/-- What a double denotes. -/
inductive Shape where
  | nan
  | infinite (negative : Bool)
  | finite (number : Binary)
  deriving DecidableEq, Repr

/-- How many fractions the fifty-two bits of a significand can tell apart. -/
def fractionRange : Nat := 0x10000000000000

/-- How many exponents eleven bits can tell apart. -/
def exponentRange : Nat := 0x800

/-- Reads the sign, the eleven bits of the exponent and the fifty-two bits of
the fraction. An exponent of all zeros lacks the leading one of the significand;
an exponent of all ones marks what is no finite number. -/
def shape (x : Float) : Shape :=
  let bits := x.toBits.toNat
  let negative := fractionRange * exponentRange ≤ bits
  let exponent : Nat := bits / fractionRange % exponentRange
  let fraction := bits % fractionRange
  if exponent + 1 = exponentRange then
    if fraction = 0 then .infinite negative else .nan
  else if exponent = 0 then
    .finite ⟨negative, fraction, -1074⟩
  else
    .finite ⟨negative, fraction + fractionRange, (exponent : Int) - 1075⟩

/-- Whether the double is a number, and not an infinity. -/
def isFinite (x : Float) : Bool :=
  match shape x with
  | .finite _ => true
  | _ => false

namespace Binary

/-- The magnitude as a quotient of naturals. -/
def ratio (b : Binary) : Nat × Nat :=
  (b.significand * Nat.pow 2 b.exponent.toNat, Nat.pow 2 (-b.exponent).toNat)

/-- Whether the number has no fractional part. -/
def isWhole (b : Binary) : Bool :=
  b.ratio.1 % b.ratio.2 = 0

/-- The number without its fractional part. -/
def truncate (b : Binary) : Int :=
  let whole : Int := (b.ratio.1 / b.ratio.2 : Nat)
  if b.negative then -whole else whole

end Binary

end Flowchart.Decimal
