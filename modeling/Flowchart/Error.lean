import Flowchart.DataType
import Flowchart.Operator

/-!
# What can go wrong

An `Error` is a cause: which rule was broken, and by what. Its wording is in one
place, `Error.message`. A `Failure` is an error together with the block that was
being executed, if one was. The location is a field and not one more layer of
error, so a failure cannot be located twice: the innermost block keeps it.
-/

namespace Flowchart

/-- The number by which the links of a diagram, and its failures, name a block. -/
abbrev BlockId := UInt32

/-- The identifier in decimal digits. -/
def BlockId.text (id : BlockId) : String :=
  toString id.toNat

/-- A broken rule of the expression language. -/
inductive SyntaxFault where
  | emptyExpression
  | notCondition (text : String) (type : DataType)
  | unopenedGroup (text : String)
  | unclosedGroup (text : String)
  | missingConjunct (before : Bool) (op : Connective) (text : String)
  | missingComparand (op : Comparison) (text : String)
  | chainedComparison (text : String)
  | unterminatedString (text : String)
  | unopenedParenthesis
  | unclosedParenthesis
  | missingOperand (symbol : String)
  | missingOperator
  | noAssignmentSign (text : String)
  | noAssignmentTarget (text : String)
  /-- A fault that someone else put into words. -/
  | described (text : String)
  deriving DecidableEq, Repr

/-- A computation on integers that has no result. -/
inductive ArithmeticFault where
  | divisionByZero
  | overflow (left : Int64) (op : BinaryOp) (right : Int64)
  | negationOverflow (operand : Int64)
  /-- A fault that someone else put into words. -/
  | described (text : String)
  deriving DecidableEq, Repr

/-- A diagram whose parts do not fit together. -/
inductive DiagramFault where
  | repeatedVariable (name : String)
  | repeatedBlock (id : BlockId)
  | unresolvedLinks (links : List String)
  /-- A fault that someone else put into words. -/
  | described (text : String)
  deriving DecidableEq, Repr

/-- Why something could not be done. -/
inductive Error where
  /-- A value has no counterpart in the wanted type. -/
  | coercion (value : String) (source target : DataType)
  /-- An operator does not take operands of these types. -/
  | mismatch (op : String) (left right : DataType)
  | illFormed (fault : SyntaxFault)
  | unknownToken (token : String)
  | arithmetic (fault : ArithmeticFault)
  | undeclared (name : String)
  | unknownBlock (id : BlockId)
  | invalidDiagram (fault : DiagramFault)
  /-- The prepared replies are used up. -/
  | inputExhausted
  | sessionClosed (session : String)
  | device (text : String)
  /-- A document cannot be decoded; the detail is for the reader's eyes only. -/
  | malformedDocument (detail : Option String)
  deriving DecidableEq, Repr

def quoted (text : String) : String :=
  "'" ++ text ++ "'"

def SyntaxFault.message : SyntaxFault → String
  | emptyExpression => "empty expression"
  | notCondition text type =>
    "condition " ++ quoted text ++ " has no comparison or logical operator (evaluated to "
      ++ type.name ++ ")"
  | unopenedGroup text => "unbalanced ')' in " ++ quoted text
  | unclosedGroup text => "unbalanced '(' in " ++ quoted text
  | missingConjunct before op text =>
    "missing operand " ++ (if before then "before " else "after ") ++ quoted op.symbol
      ++ " in " ++ quoted text
  | missingComparand op text =>
    "missing operand for " ++ quoted op.symbol ++ " in " ++ quoted text
  | chainedComparison text => "more than one comparison operator in " ++ quoted text
  | unterminatedString text => "unterminated string literal in " ++ quoted text
  | unopenedParenthesis => "unbalanced ')'"
  | unclosedParenthesis => "unbalanced '('"
  | missingOperand symbol => "missing operand for " ++ quoted symbol
  | missingOperator => "missing operator between operands"
  | noAssignmentSign text => "assignment " ++ quoted text ++ " has no '='"
  | noAssignmentTarget text => "assignment " ++ quoted text ++ " has no target"
  | described text => text

def ArithmeticFault.message : ArithmeticFault → String
  | divisionByZero => "division by zero"
  | overflow left op right =>
    toString left.toInt ++ " " ++ op.symbol ++ " " ++ toString right.toInt ++ " overflows"
  | negationOverflow operand => "-" ++ toString operand.toInt ++ " overflows"
  | described text => text

def DiagramFault.message : DiagramFault → String
  | repeatedVariable name => "variable " ++ quoted name ++ " declared twice"
  | repeatedBlock id => "block id " ++ id.text ++ " used twice"
  | unresolvedLinks links => "unresolved links: " ++ ", ".intercalate links
  | described text => text

/-- The wording of an error. -/
def Error.message : Error → String
  | coercion value source target =>
    "cannot convert " ++ source.name ++ " value " ++ quoted value ++ " to " ++ target.name
  | mismatch op left right =>
    "operator " ++ quoted op ++ " is not defined for " ++ left.name ++ " and " ++ right.name
  | illFormed fault => "syntax error: " ++ fault.message
  | unknownToken token => "unknown token " ++ quoted token
  | arithmetic fault => "arithmetic error: " ++ fault.message
  | undeclared name => "variable " ++ quoted name ++ " is not declared"
  | unknownBlock id => "block " ++ id.text ++ " does not exist"
  | invalidDiagram fault => "invalid diagram: " ++ fault.message
  | inputExhausted => "no more input available"
  | sessionClosed session => "session " ++ quoted session ++ " closed"
  | device text => "i/o error: " ++ text
  | malformedDocument none => "malformed document"
  | malformedDocument (some detail) => "malformed document: " ++ detail

/-- An error, and the block in which it arose, if it arose in one. -/
structure Failure where
  error : Error
  block : Option BlockId
  deriving DecidableEq, Repr

namespace Failure

/-- An error that arose outside all blocks. -/
def unlocated (error : Error) : Failure := ⟨error, none⟩

/-- Names the block in which the failure arose, unless one is named already. -/
def locate (id : BlockId) (failure : Failure) : Failure :=
  match failure.block with
  | none => ⟨failure.error, some id⟩
  | some _ => failure

def message (failure : Failure) : String :=
  match failure.block with
  | none => failure.error.message
  | some id => "block " ++ id.text ++ ": " ++ failure.error.message

end Failure

end Flowchart
