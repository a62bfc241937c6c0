import PolishCalc.Token

/-! Expressions in prefix form: numbers, operators applied to operands, and signs. Every node keeps
the token it was read from, an application that of its operator. -/
namespace PolishCalc

inductive Operator where
  | add
  | sub
  | mul
  | div
deriving DecidableEq

namespace Operator

def ofKind? : Token.Kind → Option Operator
  | .plus => some .add
  | .minus => some .sub
  | .star => some .mul
  | .slash => some .div
  | _ => none

def toChar : Operator → Char
  | .add => '+'
  | .sub => '-'
  | .mul => '*'
  | .div => '/'

end Operator

inductive Sign where
  | plus
  | minus
deriving DecidableEq

namespace Sign

def ofKind? : Token.Kind → Option Sign
  | .plus => some .plus
  | .minus => some .minus
  | _ => none

def toChar : Sign → Char
  | .plus => '+'
  | .minus => '-'

end Sign

inductive Expr where
  | number (value : Number) (token : Token)
  | apply (operator : Operator) (token : Token) (operands : List Expr)
  | signed (sign : Sign) (token : Token) (operand : Expr)

end PolishCalc
