import Flowchart.Expr.Arithmetic
import Flowchart.Expr.Token

/-!
# Postfix order

Tokens in infix order are brought into postfix order with one stack of operators
and parentheses, and then computed with one stack of values. A binary operator
first lets go every operator on the stack that binds at least as tightly; a sign
goes onto the stack without letting anything go, so it binds to what follows it.
-/

namespace Flowchart.Expr

/-- An operator with its operands before it. -/
inductive PostfixItem where
  | operand (value : Value)
  | binary (op : BinaryOp)
  | negation
  deriving DecidableEq

/-- What waits on the stack for its turn. -/
inductive Waiting where
  | binary (op : BinaryOp)
  | negation
  | paren
  deriving DecidableEq

namespace Waiting

/-- The place of an operator in the output; a parenthesis has none. -/
def item? : Waiting → Option PostfixItem
  | binary op => some (.binary op)
  | negation => some .negation
  | paren => none

/-- Whether it has to go before an operator of the given precedence comes on top. -/
def yieldsTo (precedence : Nat) : Waiting → Bool
  | binary op => precedence ≤ op.precedence
  | negation => true
  | paren => false

/-- The operators at the top of the stack that go before an operator comes on top. -/
def released (op : BinaryOp) (stack : List Waiting) : List PostfixItem :=
  (stack.takeWhile (yieldsTo op.precedence)).filterMap item?

/-- The stack under the operators that go. -/
def kept (op : BinaryOp) (stack : List Waiting) : List Waiting :=
  stack.dropWhile (yieldsTo op.precedence)

/-- The operators above the nearest parenthesis, and the stack under it. -/
def toParen? : List Waiting → Option (List PostfixItem × List Waiting)
  | [] => none
  | paren :: rest => some ([], rest)
  | binary op :: rest => (toParen? rest).map fun cut => (.binary op :: cut.1, cut.2)
  | negation :: rest => (toParen? rest).map fun cut => (.negation :: cut.1, cut.2)

/-- The whole stack in the order of the output, if no parenthesis is left on it. -/
def drain? (stack : List Waiting) : Option (List PostfixItem) :=
  stack.mapM item?

end Waiting

/-- Items in front of an outcome. -/
def before (items : List PostfixItem) :
    Except Error (List PostfixItem) → Except Error (List PostfixItem)
  | .error e => .error e
  | .ok rest => .ok (items ++ rest)

/-- The tokens in postfix order, given the stack of what waits. -/
def toPostfixWith : List Waiting → List Token → Except Error (List PostfixItem)
  | stack, [] =>
    match Waiting.drain? stack with
    | some items => .ok items
    | none => .error (.illFormed .unclosedParenthesis)
  | stack, .operand value :: rest => before [.operand value] (toPostfixWith stack rest)
  | stack, .negation :: rest => toPostfixWith (.negation :: stack) rest
  | stack, .binary op :: rest =>
    before (Waiting.released op stack) (toPostfixWith (.binary op :: Waiting.kept op stack) rest)
  | stack, .leftParen :: rest => toPostfixWith (.paren :: stack) rest
  | stack, .rightParen :: rest =>
    match Waiting.toParen? stack with
    | some (items, under) => before items (toPostfixWith under rest)
    | none => .error (.illFormed .unopenedParenthesis)

/-- The tokens in postfix order. -/
def toPostfix (tokens : List Token) : Except Error (List PostfixItem) :=
  toPostfixWith [] tokens

/-- The error that an operator found too few values. -/
def missingOperand (symbol : String) : Error :=
  .illFormed (.missingOperand symbol)

/-- Computes one item on the stack of values, the last value first. -/
def PostfixItem.compute (stack : List Value) : PostfixItem → Except Error (List Value)
  | operand value => .ok (value :: stack)
  | negation =>
    match stack with
    | [] => .error (missingOperand BinaryOp.sub.symbol)
    | a :: under =>
      match negate a with
      | .error e => .error e
      | .ok value => .ok (value :: under)
  | binary op =>
    match stack with
    | b :: a :: under =>
      match apply op a b with
      | .error e => .error e
      | .ok value => .ok (value :: under)
    | _ => .error (missingOperand op.symbol)

/-- Computes the items in turn. -/
def computeAll : List Value → List PostfixItem → Except Error (List Value)
  | stack, [] => .ok stack
  | stack, item :: rest =>
    match item.compute stack with
    | .error e => .error e
    | .ok stack => computeAll stack rest

/-- The value of items in postfix order. -/
def evalPostfix (items : List PostfixItem) : Except Error Value :=
  match computeAll [] items with
  | .error e => .error e
  | .ok [] => .error (.illFormed .emptyExpression)
  | .ok [value] => .ok value
  | .ok _ => .error (.illFormed .missingOperator)

/-- The value of a list of tokens. -/
def evalTokens (tokens : List Token) : Except Error Value :=
  match toPostfix tokens with
  | .error e => .error e
  | .ok items => evalPostfix items

/-- The value of a text without comparisons and connectives. -/
def evaluateArithmetic (text : List Char) (scope : Scope) : Except Error Value :=
  match Token.read text scope with
  | .error e => .error e
  | .ok tokens => evalTokens tokens

end Flowchart.Expr
