import Flowchart.Decimal.Numeral
import Flowchart.Environment
import Flowchart.Expr.Literals

/-!
# Groups become slots

A text with groups is flattened: each group is evaluated, its value is kept in a
list, and the group gives way to a slot, the name `$n` of the n-th value. A value
never becomes source text again, so nothing is lost on the way and nothing in a
value can be mistaken for an operator.

The groups are taken from the last opening parenthesis backwards. When one is
evaluated, all groups inside it are slots already, so the evaluated text holds no
parentheses. One pass from the right does it: a closing parenthesis starts a new
stretch of text, and an opening one ends the current stretch and evaluates it.
-/

namespace Flowchart.Expr

/-- A way to evaluate a text in a scope. -/
abbrev Evaluator := List Char → Scope → Except Error Value

/-- The name of a slot. -/
def slotName (n : Nat) : List Char :=
  '$' :: Nat.toDigits 10 n

/-- The text that stands in for a group. -/
def slotText (n : Nat) : List Char :=
  ' ' :: slotName n ++ [' ']

/-- The number of the slot that a name belongs to. -/
def slotIndex? (name : String) : Option Nat :=
  match name.toList with
  | '$' :: digits => Decimal.readNat? digits
  | _ => none

/-- The scope in which the first slots hold the given values. -/
def withSlots (values : List Value) (outer : Scope) : Scope := fun name =>
  ((slotIndex? name).bind fun n => values[n]?).or (outer name)

/-- A text without groups, and the values of its slots. -/
structure Flattened where
  text : List Char
  values : List Value

/-- What is known of the text to the right of a position. -/
structure Pending where
  /-- The text up to the next parenthesis that waits to be matched, or to the end. -/
  stretch : List Char
  /-- The stretches after the parentheses that wait, the nearest first. -/
  beyond : List (List Char)
  values : List Value

/-- A character that is no parenthesis in front of what is known. -/
def Pending.ahead (c : Char) (p : Pending) : Pending :=
  { p with stretch := c :: p.stretch }

/-- A closing parenthesis in front: it waits to be matched. -/
def Pending.close (p : Pending) : Pending :=
  ⟨[], p.stretch :: p.beyond, p.values⟩

/-- An opening parenthesis in front: the current stretch is a group. The whole
text is only there to be named in the error. -/
def Pending.open? (eval : Evaluator) (scope : Scope) (whole : List Char) (p : Pending) :
    Except Error Pending :=
  match p.beyond with
  | [] => .error (.illFormed (.unclosedGroup (String.ofList whole)))
  | next :: beyond =>
    match eval p.stretch (withSlots p.values scope) with
    | .error e => .error e
    | .ok value => .ok ⟨slotText p.values.length ++ next, beyond, p.values ++ [value]⟩

/-- Evaluates the groups of a text from the right. -/
def resolveFrom (eval : Evaluator) (scope : Scope) (whole : List Char) :
    (inside : Bool) → List Char → Except Error Pending
  | _, [] => .ok ⟨[], [], []⟩
  | inside, c :: rest =>
    match resolveFrom eval scope whole (if c = '"' then !inside else inside) rest with
    | .error e => .error e
    | .ok p =>
      if !inside && c = ')' then .ok p.close
      else if !inside && c = '(' then p.open? eval scope whole
      else .ok (p.ahead c)

/-- The text with its groups evaluated. A parenthesis that closes nothing is
refused before any group is looked at. -/
def resolveGroups (eval : Evaluator) (text : List Char) (scope : Scope) :
    Except Error Flattened :=
  if closesTooOften 0 false text then
    .error (.illFormed (.unopenedGroup (String.ofList text)))
  else
    match resolveFrom eval scope text false text with
    | .error e => .error e
    | .ok p => .ok ⟨p.stretch, p.values⟩

end Flowchart.Expr
