/-!
# The operators of expressions

Three families that never mix: arithmetic, comparisons, and the connectives of
conditions. Each family has a reader that recognises an operator at the front of
a text, the two-character forms before the one-character forms, so that `<` is
never taken out of `<=`.
-/

namespace Flowchart

/-- An arithmetic operator between two operands. -/
inductive BinaryOp where
  | add
  | sub
  | mul
  | div
  deriving DecidableEq, Repr

namespace BinaryOp

def symbol : BinaryOp → String
  | add => "+"
  | sub => "-"
  | mul => "*"
  | div => "/"

/-- How tightly the operator binds. -/
def precedence : BinaryOp → Nat
  | add | sub => 1
  | mul | div => 2

/-- The operator that a character writes. -/
def ofChar? : Char → Option BinaryOp
  | '+' => some add
  | '-' => some sub
  | '*' => some mul
  | '/' => some div
  | _ => none

end BinaryOp

/-- A comparison of two operands. -/
inductive Comparison where
  | eq
  | ne
  | le
  | ge
  | lt
  | gt
  deriving DecidableEq, Repr

namespace Comparison

def symbol : Comparison → String
  | eq => "=="
  | ne => "!="
  | le => "<="
  | ge => ">="
  | lt => "<"
  | gt => ">"

/-- The comparison at the front of a text. -/
def leading? : List Char → Option Comparison
  | '=' :: '=' :: _ => some eq
  | '!' :: '=' :: _ => some ne
  | '<' :: '=' :: _ => some le
  | '>' :: '=' :: _ => some ge
  | '<' :: _ => some lt
  | '>' :: _ => some gt
  | _ => none

end Comparison

/-- A connective of two conditions. -/
inductive Connective where
  | and
  | or
  deriving DecidableEq, Repr

namespace Connective

def symbol : Connective → String
  | and => "&&"
  | or => "||"

/-- The connective at the front of a text. -/
def leading? : List Char → Option Connective
  | '&' :: '&' :: _ => some and
  | '|' :: '|' :: _ => some or
  | _ => none

end Connective

end Flowchart
