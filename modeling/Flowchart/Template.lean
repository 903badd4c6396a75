import Flowchart.Environment
import Flowchart.Text.Letter

/-!
# Templates

The text of a print block is a template. Outside its quoted regions each word that
names a variable gives way to the value of the variable, written as a literal;
everything else stays as it is, quotes included. A quote that is not closed goes on
to the end.

A template is rendered in one pass. A word is held back until it ends: at a quote,
at another character that is not part of a word, or where the template ends. What is
written out is never looked at again.
-/

namespace Flowchart.Template

/-- What a word becomes that has been held back. There may be none. -/
def settle (scope : Scope) (word : List Char) : List Char :=
  if word.isEmpty then []
  else
    match scope (String.ofList word) with
    | some value => value.literal.toList
    | none => word

/-- The line from here on: whether this is inside quotes, the word that is held
back, and the rest of the template. -/
def renderFrom (scope : Scope) : (inside : Bool) → (word : List Char) → List Char → List Char
  | _, word, [] => settle scope word
  | inside, word, c :: rest =>
    if c = '"' then settle scope word ++ c :: renderFrom scope (!inside) [] rest
    else if inside then c :: renderFrom scope inside word rest
    else if Text.isWordChar c then renderFrom scope inside (word ++ [c]) rest
    else settle scope word ++ c :: renderFrom scope inside [] rest

/-- The line that a template stands for in a scope. -/
def render (scope : Scope) (template : List Char) : List Char :=
  renderFrom scope false [] template

end Flowchart.Template
