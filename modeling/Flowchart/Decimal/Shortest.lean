import Flowchart.Decimal.Binary

/-!
# The fewest digits that read back

Each double stands for an interval of reals, those that round to it. The text
of a double is the decimal number with the fewest digits that lies in its
interval, and of those with that many digits the nearest to the double.

On the grid of numbers with a given count of digits only the two neighbours of
the double can be nearest, so each grid is settled by looking at two candidates.
The ends of the interval belong to it exactly when the significand is even,
because reading rounds a half to the even neighbour.
-/

namespace Flowchart.Decimal

/-- Digits `d₁ d₂ … dₙ` with a decimal point: the number `0.d₁d₂…dₙ * 10 ^ point`. -/
structure Digits where
  digits : List Char
  point : Int
  deriving DecidableEq, Repr

/-- Which of two equally near candidates is taken. -/
inductive Tie where
  | up
  | even
  deriving DecidableEq, Repr

/-- How many digits the number has in base ten. -/
def digitCount (n : Nat) : Nat :=
  (Nat.toDigits 10 n).length

/-- The digits without the zeros at their end. -/
def dropTrailingZeros (digits : List Char) : List Char :=
  (digits.reverse.dropWhile (· = '0')).reverse

namespace Binary

/-- The factors that turn a count of quarter units in the last place into a
count of grid steps `10 ^ grid`: `x` quarters are `x * n / d` steps. -/
def scale (b : Binary) (grid : Int) : Nat × Nat :=
  (Nat.pow 2 (b.exponent - 2).toNat * Nat.pow 10 (-grid).toNat,
    Nat.pow 2 (2 - b.exponent).toNat * Nat.pow 10 grid.toNat)

/-- The interval of the reals that round to the number, in quarter units. Below
a power of two the neighbour is half as far. -/
def interval (b : Binary) : Nat × Nat :=
  let below := if b.significand = fractionRange ∧ b.exponent ≠ -1074 then 1 else 2
  (4 * b.significand - below, 4 * b.significand + 2)

/-- The power of ten of the first digit of the magnitude. -/
def leadingPower (b : Binary) : Int :=
  -- the numbers of digits of a quotient's sides tell its power of ten up to one
  let (n, d) := b.scale 0
  let guess : Int := digitCount (4 * b.significand * n) - digitCount d
  let (n, d) := b.scale guess
  if d ≤ 4 * b.significand * n then guess else guess - 1

/-- Whether `steps` steps of the grid lie in the interval of the number. -/
def holds (b : Binary) (grid : Int) (steps : Nat) : Bool :=
  let (n, d) := b.scale grid
  let (low, high) := b.interval
  if b.significand % 2 = 0 then
    low * n ≤ steps * d && steps * d ≤ high * n
  else
    low * n < steps * d && steps * d < high * n

/-- The grid point nearest to the number, if one lies in its interval. -/
def nearest? (tie : Tie) (b : Binary) (grid : Int) : Option Nat :=
  let (n, d) := b.scale grid
  let value := 4 * b.significand * n
  let lower := value / d
  match b.holds grid lower, b.holds grid (lower + 1) with
  | false, false => none
  | true, false => some lower
  | false, true => some (lower + 1)
  | true, true =>
    -- the number lies between the two, so both distances are natural
    let toLower := value - lower * d
    let toUpper := (lower + 1) * d - value
    if toLower < toUpper then some lower
    else if toUpper < toLower then some (lower + 1)
    else match tie with
      | .up => some (lower + 1)
      | .even => if lower % 2 = 0 then some lower else some (lower + 1)

/-- The shortest digits that read back as the magnitude of a number that is not
zero. Seventeen digits tell all doubles apart, so the search ends by then. -/
def shortest (tie : Tie) (b : Binary) : Digits :=
  let leading := b.leadingPower
  let found := (List.range 17).findSome? fun (more : Nat) =>
    let grid := leading - more
    (b.nearest? tie grid).map fun steps => (steps, grid)
  let (steps, grid) := found.getD (b.ratio.1 / b.ratio.2, 0)
  let digits := Nat.toDigits 10 steps
  ⟨dropTrailingZeros digits, digits.length + grid⟩

end Binary

end Flowchart.Decimal
