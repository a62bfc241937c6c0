import PolishCalc.Expr.Eval
import PolishCalc.Expr.Parse
import PolishCalc.Expr.Render
import PolishCalc.Fault.Report
import PolishCalc.Source.Scan

/-! From source text to value. The first fault ends a run: one of scanning before any of parsing,
and those before any of evaluation. -/
namespace PolishCalc

structure Outcome where
  tree : Expr
  value : Number

structure Run where
  result : Except Fault Outcome
  lines : LineIndex

def evaluate (tokens : List Token) : Except Fault Outcome := do
  let tree ← parse tokens
  return ⟨tree, ← tree.eval⟩

def interpret (source : String) : Run :=
  let scanned := scan source
  match scanned.faults with
  | fault :: _ => ⟨.error fault, scanned.lines⟩
  | [] => ⟨evaluate scanned.tokens, scanned.lines⟩

namespace Run

def exitCode (run : Run) : UInt8 :=
  match run.result with
  | .ok _ => 0
  | .error fault => fault.exitCode

def report? (run : Run) (source : String) (view : View) : Option String :=
  match run.result with
  | .ok _ => none
  | .error fault => some (fault.report source run.lines view)

end Run
end PolishCalc
