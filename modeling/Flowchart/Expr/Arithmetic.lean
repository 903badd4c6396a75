import Flowchart.Value

/-!
# Computing and comparing

Two integers stay integers: division drops the fraction, and a result outside
sixty-four bits is an error, never wrapped. Any other pair is computed in doubles,
the left operand coerced before the right one.

Numbers compare as numbers. Two texts and two truth values compare by what they
hold, any other pair by its text, and for these only equality is defined.
-/

namespace Flowchart.Expr

/-- An exact result as a value, if it fits. -/
def fitted (overflow : ArithmeticFault) (n : Int) : Except Error Value :=
  match Decimal.int64? n with
  | some n => .ok (.int n)
  | none => .error (.arithmetic overflow)

/-- The value with its sign changed. -/
def negate : Value → Except Error Value
  | .int n => fitted (.negationOverflow n) (-n.toInt)
  | v =>
    match v.toDouble with
    | .error e => .error e
    | .ok x => .ok (.double (-x))

/-- An operator on integers. -/
def applyInt (op : BinaryOp) (x y : Int64) : Except Error Value :=
  let overflow := ArithmeticFault.overflow x op y
  match op with
  | .add => fitted overflow (x.toInt + y.toInt)
  | .sub => fitted overflow (x.toInt - y.toInt)
  | .mul => fitted overflow (x.toInt * y.toInt)
  | .div =>
    if y = 0 then .error (.arithmetic .divisionByZero)
    else fitted overflow (x.toInt.tdiv y.toInt)

/-- An operator on doubles. -/
def applyDouble (op : BinaryOp) (x y : Float) : Float :=
  match op with
  | .add => x + y
  | .sub => x - y
  | .mul => x * y
  | .div => x / y

/-- An operator on values. -/
def apply (op : BinaryOp) (a b : Value) : Except Error Value :=
  match a, b with
  | .int x, .int y => applyInt op x y
  | _, _ =>
    match a.toDouble with
    | .error e => .error e
    | .ok x =>
      match b.toDouble with
      | .error e => .error e
      | .ok y => .ok (.double (applyDouble op x y))

/-- How two numbers compare; a missing number compares with nothing. -/
def order? : Value → Value → Except Error (Option Ordering)
  | .int a, .int b => .ok (some (compare a.toInt b.toInt))
  | a, b =>
    match a.toDouble with
    | .error e => .error e
    | .ok x =>
      match b.toDouble with
      | .error e => .error e
      | .ok y =>
        .ok (if x < y then some .lt else if x == y then some .eq
          else if y < x then some .gt else none)

/-- Whether the comparison holds of operands in this order. -/
def holdsOf (op : Comparison) (order : Option Ordering) : Bool :=
  match op with
  | .eq => order = some .eq
  | .ne => order ≠ some .eq
  | .lt => order = some .lt
  | .le => order = some .lt || order = some .eq
  | .gt => order = some .gt
  | .ge => order = some .gt || order = some .eq

/-- Whether two values that are not both numbers are equal. -/
def sameContent : Value → Value → Bool
  | .bool a, .bool b => a = b
  | .str a, .str b => a = b
  | a, b => a.text = b.text

/-- Whether the comparison holds of two values. -/
def compareValues (op : Comparison) (a b : Value) : Except Error Bool :=
  if a.isNumeric && b.isNumeric then
    match order? a b with
    | .error e => .error e
    | .ok order => .ok (holdsOf op order)
  else
    match op with
    | .eq => .ok (sameContent a b)
    | .ne => .ok (!sameContent a b)
    | _ => .error (.mismatch op.symbol a.type b.type)

end Flowchart.Expr
