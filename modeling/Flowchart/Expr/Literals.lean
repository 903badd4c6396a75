/-!
# Inside and outside of string literals

A double quote opens a string literal and the next one closes it; there is no
escape. Operators and parentheses count only outside literals, so every scan of an
expression carries one bit: whether it stands inside a literal.
-/

namespace Flowchart.Expr

/-- Whether some end of the text that starts outside the literals passes the test. -/
def occursOutside (test : List Char → Bool) : (inside : Bool) → List Char → Bool
  | _, [] => false
  | inside, c :: rest =>
    if c = '"' then occursOutside test (!inside) rest
    else !inside && test (c :: rest) || occursOutside test inside rest

/-- How many parentheses open outside the literals. -/
def openings : (inside : Bool) → List Char → Nat
  | _, [] => 0
  | inside, c :: rest =>
    if c = '"' then openings (!inside) rest
    else if !inside && c = '(' then openings inside rest + 1
    else openings inside rest

/-- Whether a parenthesis outside the literals closes a group that was never
opened. The depth is the number of groups that are open. -/
def closesTooOften : (depth : Nat) → (inside : Bool) → List Char → Bool
  | _, _, [] => false
  | depth, inside, c :: rest =>
    if c = '"' then closesTooOften depth (!inside) rest
    else if inside then closesTooOften depth inside rest
    else if c = '(' then closesTooOften (depth + 1) inside rest
    else if c = ')' then
      match depth with
      | 0 => true
      | outer + 1 => closesTooOften outer inside rest
    else closesTooOften depth inside rest

end Flowchart.Expr
