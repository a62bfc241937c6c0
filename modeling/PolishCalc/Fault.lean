import PolishCalc.Token

/-! What can go wrong between a text and its value. A fault has a cause and the token it was found
at; the words and the exit status follow from these. -/
namespace PolishCalc

namespace Fault

inductive Stage where
  | scanning
  | parsing
  | evaluation
deriving DecidableEq

def Stage.label : Stage → String
  | .scanning => "LexError"
  | .parsing => "ParseError"
  | .evaluation => "RuntimeError"

def Stage.exitCode : Stage → UInt8
  | .scanning => 65
  | .parsing => 65
  | .evaluation => 70

inductive Cause where
  | strayCharacter
  | numberOutOfRange
  | unclosedComment
  | expectedExpression
  | expectedOperator
  | expectedOperand
  | tooFewOperands
  | unclosedApplication
  | expectedClosing
  | tooDeep
  | trailingTokens
  | divisionByZero
  | noOperands
deriving DecidableEq

def Cause.stage : Cause → Stage
  | .strayCharacter | .numberOutOfRange | .unclosedComment => .scanning
  | .divisionByZero | .noOperands => .evaluation
  | _ => .parsing

end Fault

def maxDepth : Nat := 256

structure Fault where
  cause : Fault.Cause
  token : Token
deriving DecidableEq

namespace Fault

def stage (f : Fault) : Stage := f.cause.stage

def exitCode (f : Fault) : UInt8 := f.stage.exitCode

def message (f : Fault) : String :=
  match f.cause with
  | .strayCharacter => "unexpected character '" ++ f.token.lexeme ++ "'"
  | .numberOutOfRange => "number literal '" ++ f.token.lexeme ++ "' is out of range"
  | .unclosedComment => "unterminated block comment"
  | .expectedExpression =>
    "expected an expression starting with '(', '+', '-' or a number but got " ++ f.token.describe
  | .expectedOperator =>
    "expected an operator '+', '-', '*' or '/' but got " ++ f.token.describe
  | .expectedOperand =>
    "expected a number or '(' after the unary sign but got " ++ f.token.describe
  | .tooFewOperands => "expected at least two operands before ')'"
  | .unclosedApplication => "missing ')' after expression"
  | .expectedClosing => "expected ')' but got " ++ f.token.describe
  | .tooDeep => "expressions nested deeper than " ++ toString maxDepth ++ " levels"
  | .trailingTokens => "expected end of input but got " ++ f.token.describe
  | .divisionByZero => "cannot divide by 0"
  | .noOperands => "operator '" ++ f.token.lexeme ++ "' has no operands"

def sentence (f : Fault) : String :=
  "Error on line " ++ toString f.token.position.line ++ ", column " ++
    toString f.token.position.column ++ ": " ++ f.message ++ "."

end Fault
end PolishCalc
