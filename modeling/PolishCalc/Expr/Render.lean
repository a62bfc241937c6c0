import PolishCalc.Expr.Basic
import PolishCalc.Number.Render

/-! The text of an expression: applications in parentheses with one blank before each operand, signs
right before what they apply to. -/
namespace PolishCalc.Expr

mutual
def render : Expr → List Char
  | .number value _ => value.render
  | .apply operator _ operands => '(' :: operator.toChar :: (renderOperands operands ++ [')'])
  | .signed sign _ operand => sign.toChar :: operand.render

def renderOperands : List Expr → List Char
  | [] => []
  | e :: es => ' ' :: (e.render ++ renderOperands es)
end

instance : ToString Expr := ⟨fun e => String.ofList e.render⟩

end PolishCalc.Expr
