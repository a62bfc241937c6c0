import PolishCalc.Expr.Basic
import PolishCalc.Fault
import PolishCalc.Number.Arithmetic

/-! The value of an expression. All operands of an application are evaluated first, from left to
right; then the operator folds them from the left. -/
namespace PolishCalc

def Operator.combine (operator : Operator) (token : Token) (x y : Number) :
    Except Fault Number :=
  match operator with
  | .add => .ok (x + y)
  | .sub => .ok (x - y)
  | .mul => .ok (x * y)
  | .div => if y.isZero then .error ⟨.divisionByZero, token⟩ else .ok (x / y)

def Operator.fold (operator : Operator) (token : Token) : List Number → Except Fault Number
  | [] => .error ⟨.noOperands, token⟩
  | x :: xs => xs.foldlM (operator.combine token) x

def Sign.act : Sign → Number → Number
  | .plus, x => x
  | .minus, x => -x

namespace Expr

mutual
def eval : Expr → Except Fault Number
  | .number value _ => .ok value
  | .apply operator token operands => do operator.fold token (← evalOperands operands)
  | .signed sign _ operand => do return sign.act (← operand.eval)

def evalOperands : List Expr → Except Fault (List Number)
  | [] => .ok []
  | e :: es => do return (← e.eval) :: (← evalOperands es)
end

end Expr
end PolishCalc
