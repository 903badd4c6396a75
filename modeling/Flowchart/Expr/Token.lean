import Flowchart.Decimal.Numeral
import Flowchart.Environment
import Flowchart.Expr.Lexeme

/-!
# Tokens

A token is a lexeme with its meaning: a number, a literal, a truth value, or the
value that a name has in the scope. A minus sign is a sign of its operand when no
operand stands before it, and an operator between two operands otherwise.
-/

namespace Flowchart.Expr

inductive Token where
  | operand (value : Value)
  | binary (op : BinaryOp)
  /-- A minus sign before its operand. -/
  | negation
  | leftParen
  | rightParen
  deriving DecidableEq

/-- The value of a number: an integer if it has no point and fits, a double
otherwise. -/
def numberValue? (text : List Char) : Option Value :=
  match if text.contains '.' then none else Decimal.readInt64? text with
  | some n => some (.int n)
  | none => (Decimal.readDouble? text).map .double

namespace Token

/-- An operand, or the error that its lexeme means nothing. -/
def operand? (lexeme : List Char) : Option Value → Except Error Token
  | some value => .ok (operand value)
  | none => .error (.unknownToken (String.ofList lexeme))

/-- An operator in its place: only a minus sign can come before an operand. -/
def ofOperator (afterOperand : Bool) (op : BinaryOp) : Token :=
  if !afterOperand && op = .sub then negation else binary op

/-- The token of a lexeme. The whole text is only there to be named in an error. -/
def ofLexeme (scope : Scope) (whole : List Char) (afterOperand : Bool) :
    Lexeme → Except Error Token
  | .number text => operand? text (numberValue? text)
  | .slot name => operand? name (scope (String.ofList name))
  | .word text =>
    operand? text <|
      match Value.boolOfWord? text with
      | some b => some (.bool b)
      | none => scope (String.ofList text)
  | .literal text => .ok (operand (.str (String.ofList text)))
  | .unterminated => .error (.illFormed (.unterminatedString (String.ofList whole)))
  | .operator op => .ok (ofOperator afterOperand op)
  | .leftParen => .ok leftParen
  | .rightParen => .ok rightParen
  | .unknown c => .error (.unknownToken (String.ofList [c]))

/-- Whether an operand ends with this token. -/
def endsOperand : Token → Bool
  | operand _ | rightParen => true
  | binary _ | negation | leftParen => false

/-- The tokens of the lexemes, up to the first error. -/
def ofLexemes (scope : Scope) (whole : List Char) :
    (afterOperand : Bool) → List Lexeme → Except Error (List Token)
  | _, [] => .ok []
  | afterOperand, lexeme :: rest =>
    match ofLexeme scope whole afterOperand lexeme with
    | .error e => .error e
    | .ok token =>
      match ofLexemes scope whole token.endsOperand rest with
      | .error e => .error e
      | .ok tokens => .ok (token :: tokens)

/-- The tokens of a text. -/
def read (text : List Char) (scope : Scope) : Except Error (List Token) :=
  ofLexemes scope text false (Lexeme.scan text)

end Token

end Flowchart.Expr
