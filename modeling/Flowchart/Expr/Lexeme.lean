import Flowchart.Operator
import Flowchart.Text.Blank
import Flowchart.Text.Letter

/-!
# Lexemes

The words of an arithmetic text, before any name is looked up. Scanning cannot
fail: a character that starts no lexeme becomes one of its own, and so does a
literal without its closing quote, so that the faults of a text are met in the
order in which they stand.
-/

namespace Flowchart.Expr

inductive Lexeme where
  /-- Digits and points. -/
  | number (text : List Char)
  /-- A dollar sign and digits. -/
  | slot (name : List Char)
  | word (text : List Char)
  | literal (text : List Char)
  /-- A quote that is never closed. -/
  | unterminated
  | operator (op : BinaryOp)
  | leftParen
  | rightParen
  | unknown (c : Char)
  deriving DecidableEq, Repr

/-- The characters of numbers. -/
def isNumberChar (c : Char) : Bool :=
  c.isDigit || c = '.'

/-- The characters that are a lexeme each. -/
def Lexeme.ofChar (c : Char) : Lexeme :=
  match BinaryOp.ofChar? c with
  | some op => .operator op
  | none => if c = '(' then .leftParen else if c = ')' then .rightParen else .unknown c

/-- The lexemes of a text, in order. Each run of characters is as long as it can be. -/
def Lexeme.scan : List Char → List Lexeme
  | [] => []
  | c :: rest =>
    if Text.isBlank c then scan rest
    else if isNumberChar c then
      number (c :: rest.takeWhile isNumberChar) :: scan (rest.dropWhile isNumberChar)
    else if c = '$' then
      slot (c :: rest.takeWhile Char.isDigit) :: scan (rest.dropWhile Char.isDigit)
    else if Text.startsWord c then
      word (c :: rest.takeWhile Text.isWordChar) :: scan (rest.dropWhile Text.isWordChar)
    else if c = '"' then
      match _ : rest.dropWhile (· ≠ '"') with
      | [] => [unterminated]
      | _ :: beyond => literal (rest.takeWhile (· ≠ '"')) :: scan beyond
    else ofChar c :: scan rest
termination_by text => text.length
decreasing_by
  all_goals simp only [List.length_cons]
  · omega
  · have := (List.dropWhile_sublist isNumberChar (l := rest)).length_le; omega
  · have := (List.dropWhile_sublist Char.isDigit (l := rest)).length_le; omega
  · have := (List.dropWhile_sublist Text.isWordChar (l := rest)).length_le; omega
  · next after =>
    have := (List.dropWhile_sublist (· ≠ '"') (l := rest)).length_le
    simp only [after, List.length_cons] at this
    omega
  · omega

end Flowchart.Expr
