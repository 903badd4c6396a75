import Flowchart.Block
import Flowchart.Console
import Flowchart.Expr.Evaluate
import Flowchart.Template

/-!
# What a block does

Executing a block has two parts. First the block is looked at together with the
current values, which yields an action or an error and changes nothing. Then the
action is performed, and it has at most one effect: it gives one variable a value,
or writes one line, or asks for one. So a block that fails has changed nothing.

Looking at a block makes sure that the variable is declared, and so an assignment
that is performed is never refused. It is written with the refusal all the same:
that there is none depends on the variables being the same as when they were asked.
-/

namespace Flowchart

/-- What remains to be done once a block has been evaluated. -/
inductive Action where
  | go (next : Option BlockId)
  | assign (name : String) (value : Value) (next : BlockId)
  | print (line : String) (next : BlockId)
  | ask (name : String) (next : BlockId)
  deriving DecidableEq

/-- Cuts an assignment at its first equals sign. -/
def cutAssignment? (text : List Char) : Option (List Char × List Char) :=
  match text.dropWhile (· ≠ '=') with
  | [] => none
  | _ :: expression => some (text.takeWhile (· ≠ '='), expression)

/-- The action of an assignment. That the target is declared is checked before the
expression is evaluated. -/
def assignAction (scope : Scope) (text : String) (next : BlockId) : Except Error Action :=
  match cutAssignment? text.toList with
  | none => .error (.illFormed (.noAssignmentSign text))
  | some (target, expression) =>
    let name := String.ofList (Text.trim target)
    if name.isEmpty then .error (.illFormed (.noAssignmentTarget text))
    else if (scope name).isNone then .error (.undeclared name)
    else (Expr.evaluate expression scope).map fun value => .assign name value next

/-- The action of a block where names have the values of the scope. -/
def Block.action (scope : Scope) : Block → Except Error Action
  | assign _ next text => assignAction scope text next
  | print _ next template =>
    .ok (.print (String.ofList (Template.render scope template.toList)) next)
  | input _ next name =>
    if (scope name).isNone then .error (.undeclared name) else .ok (.ask name next)
  | branch _ condition whenTrue whenFalse =>
    (Expr.evaluateCondition condition.toList scope).map fun b =>
      .go (some (if b then whenTrue else whenFalse))
  | loop _ condition body next =>
    (Expr.evaluateCondition condition.toList scope).map fun b =>
      .go (some (if b then body else next))
  | stop _ next => .ok (.go next)

/-- The prompt for the value of a variable. -/
def prompt (name : String) : String :=
  name ++ ":"

section Perform

variable {m : Type → Type} [Monad m] {σ : Type} [Store σ]

/-- Gives a variable a value on the way to the next block. Where that is refused, the
thread does not get there. -/
def Store.assignAndGo (store : σ) (name : String) (value : Value) (next : BlockId) :
    Except Error (Option BlockId) × σ :=
  match assign? store name value with
  | .ok store => (.ok (some next), store)
  | .error e => (.error e, store)

/-- Performs an action: the block to go on with, if there is one, and the variables
afterwards. -/
@[specialize]
def Action.perform (console : Console m) (store : σ) :
    Action → m (Except Error (Option BlockId) × σ)
  | go next => pure (.ok next, store)
  | assign name value next => pure (Store.assignAndGo store name value next)
  | print line next => do
    match ← console.write line with
    | .ok () => pure (.ok (some next), store)
    | .error e => pure (.error e, store)
  | ask name next => do
    match ← console.ask (prompt name) with
    | .ok reply => pure (Store.assignAndGo store name (Value.ofInput reply) next)
    | .error e => pure (.error e, store)

end Perform

end Flowchart
