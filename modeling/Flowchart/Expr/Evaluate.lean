import Flowchart.Expr.Group
import Flowchart.Expr.Operands
import Flowchart.Expr.Postfix

/-!
# Evaluation

A text is evaluated by what it contains outside its literals: a connective makes
it a condition, otherwise a comparison makes it a comparison, and otherwise it is
arithmetic. Connectives and comparisons evaluate their parts in the same way, so
evaluation is one body, `evaluateBody`, that is handed a way to evaluate parts.

How deep that goes is bounded: by four, and one more for each parenthesis that
opens outside the literals. `evaluateWithin` iterates the body so many times over
an evaluator of last resort, which is never reached.
-/

namespace Flowchart.Expr

/-- Whether a connective stands outside the literals. -/
def hasConnective (text : List Char) : Bool :=
  occursOutside (fun rest => (Connective.leading? rest).isSome) false text

/-- Whether a comparison stands outside the literals. -/
def hasComparison (text : List Char) : Bool :=
  occursOutside (fun rest => (Comparison.leading? rest).isSome) false text

/-- The truth value of a text, which must be one. -/
def conditionWith (eval : Evaluator) (text : List Char) (scope : Scope) : Except Error Bool :=
  match eval text scope with
  | .error e => .error e
  | .ok (.bool b) => .ok b
  | .ok value => .error (.illFormed (.notCondition (String.ofList (Text.trim text)) value.type))

/-! ## Connectives -/

/-- The first operand that is missing: whether it should stand before its
connective, and that connective. -/
def missingConjunct? (first : List Char) (more : List (Connective × List Char)) :
    Option (Bool × Connective) :=
  if first.isEmpty then
    some (true, (more.head?.map (·.1)).getD .and)
  else
    (more.find? (·.2.isEmpty)).map fun operand => (false, operand.1)

/-- The truth values of the operands, all of them, in order. -/
def conditionsWith (eval : Evaluator) (scope : Scope) :
    List (Connective × List Char) → Except Error (List (Connective × Bool))
  | [] => .ok []
  | (op, operand) :: rest =>
    match conditionWith eval operand scope with
    | .error e => .error e
    | .ok b =>
      match conditionsWith eval scope rest with
      | .error e => .error e
      | .ok more => .ok ((op, b) :: more)

/-- Joins truth values. A run of conjunctions is joined before the disjunctions
around it: `run` is the current run, `earlier` what came before it. -/
def joinConditions : (earlier run : Bool) → List (Connective × Bool) → Bool
  | earlier, run, [] => earlier || run
  | earlier, run, (.and, b) :: rest => joinConditions earlier (run && b) rest
  | earlier, run, (.or, b) :: rest => joinConditions (earlier || run) b rest

/-- The truth value of a text with connectives. The groups come first, so that
the connectives left are those of this text. -/
def evaluateLogical (eval : Evaluator) (text : List Char) (scope : Scope) : Except Error Bool :=
  match resolveGroups eval text scope with
  | .error e => .error e
  | .ok flat =>
    let cut := conjuncts flat.text
    let first := Text.trim cut.1
    let more := cut.2.map fun operand => (operand.1, Text.trim operand.2)
    let inner := withSlots flat.values scope
    match missingConjunct? first more with
    | some (before, op) =>
      .error (.illFormed (.missingConjunct before op (String.ofList text)))
    | none =>
      match conditionWith eval first inner with
      | .error e => .error e
      | .ok b =>
        match conditionsWith eval inner more with
        | .error e => .error e
        | .ok rest => .ok (joinConditions false b rest)

/-! ## Comparisons -/

/-- The value of a text with comparisons. When all of them are inside groups, the
groups are evaluated and what is left is evaluated again. -/
def evaluateComparison (eval : Evaluator) (text : List Char) (scope : Scope) :
    Except Error Value :=
  if closesTooOften 0 false text then
    .error (.illFormed (.unopenedGroup (String.ofList text)))
  else
    match comparands text with
    | (_, []) =>
      -- the comparisons are all inside groups, so none is left in the flat text
      match resolveGroups eval text scope with
      | .error e => .error e
      | .ok flat => eval flat.text (withSlots flat.values scope)
    | (left, [(op, right)]) =>
      let left := Text.trim left
      let right := Text.trim right
      if left.isEmpty || right.isEmpty then
        .error (.illFormed (.missingComparand op (String.ofList text)))
      else
        match eval left scope with
        | .error e => .error e
        | .ok a =>
          match eval right scope with
          | .error e => .error e
          | .ok b => (compareValues op a b).map .bool
    | _ => .error (.illFormed (.chainedComparison (String.ofList text)))

/-! ## Any text -/

/-- Evaluates a text, with the given way to evaluate its parts. -/
def evaluateBody (eval : Evaluator) (text : List Char) (scope : Scope) : Except Error Value :=
  let text := unwrap (Text.trim text)
  if text.isEmpty then .error (.illFormed .emptyExpression)
  else
    match Value.boolOfWord? text with
    | some b => .ok (.bool b)
    | none =>
      if hasConnective text then (evaluateLogical eval text scope).map .bool
      else if hasComparison text then evaluateComparison eval text scope
      else evaluateArithmetic text scope

/-- Evaluation to a bounded depth, over an evaluator for what lies deeper. -/
def evaluateWithin (deeper : Evaluator) : Nat → Evaluator
  | 0 => deeper
  | depth + 1 => evaluateBody (evaluateWithin deeper depth)

/-- A depth that evaluation of the text never exceeds. -/
def depthBound (text : List Char) : Nat :=
  openings false text + 4

/-- The evaluator of last resort. -/
def outOfReach : Evaluator := fun _ _ =>
  .error (.illFormed .emptyExpression)

/-- The value of a text in a scope. -/
def evaluate (text : List Char) (scope : Scope) : Except Error Value :=
  evaluateWithin outOfReach (depthBound text) text scope

/-- The truth value of a text in a scope. Any other value is an error. -/
def evaluateCondition (text : List Char) (scope : Scope) : Except Error Bool :=
  conditionWith evaluate text scope

end Flowchart.Expr
