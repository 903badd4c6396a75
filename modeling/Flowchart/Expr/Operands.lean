import Flowchart.Expr.Wrapping
import Flowchart.Operator

/-!
# Cutting a text at its operators

A text is cut at the operators of one family that stand outside all groups and
literals: into the first operand, and each operator with the operand after it.
Where two operators could start at neighbouring characters the first one wins and
takes all of its characters with it.
-/

namespace Flowchart.Expr

variable {α : Type}

/-- Cuts the text at its operators. The first number counts characters that still
belong to the last operator, the second the groups that are open. -/
def cutOperands (leading? : List Char → Option α) (width : α → Nat) :
    (skip depth : Nat) → (inside : Bool) → List Char → List Char × List (α × List Char)
  | _, _, _, [] => ([], [])
  | skip + 1, depth, inside, _ :: rest => cutOperands leading? width skip depth inside rest
  | 0, depth, inside, c :: rest =>
    if c = '"' then ahead c (cutOperands leading? width 0 depth (!inside) rest)
    else if inside then ahead c (cutOperands leading? width 0 depth inside rest)
    else if c = '(' then ahead c (cutOperands leading? width 0 (depth + 1) inside rest)
    else if c = ')' then ahead c (cutOperands leading? width 0 (depth - 1) inside rest)
    else
      match if depth = 0 then leading? (c :: rest) else none with
      | some op =>
        let after := cutOperands leading? width (width op - 1) depth inside rest
        ([], (op, after.1) :: after.2)
      | none => ahead c (cutOperands leading? width 0 depth inside rest)

/-- The operands of the connectives. -/
def conjuncts (text : List Char) : List Char × List (Connective × List Char) :=
  cutOperands Connective.leading? (·.symbol.length) 0 0 false text

/-- The operands of the comparisons. -/
def comparands (text : List Char) : List Char × List (Comparison × List Char) :=
  cutOperands Comparison.leading? (·.symbol.length) 0 0 false text

end Flowchart.Expr
