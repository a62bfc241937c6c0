import PolishCalc.Fault
import PolishCalc.Source.LineIndex

/-! Faults as they are shown to a user: a header, then the line of the fault with a caret below its
column, when the source has that line. -/
namespace PolishCalc

inductive View where
  | prompt
  | file (path : String)

namespace Fault

def header (f : Fault) : View → String
  | .prompt => f.stage.label ++ " on column " ++ toString f.token.position.column ++ ": " ++ f.message
  | .file path =>
    path ++ ":" ++ toString f.token.position.line ++ ":" ++ toString f.token.position.column ++
      ": " ++ f.stage.label ++ ": " ++ f.message

/-- A caret behind `indent` columns. Tabs of the line above are repeated, so that the caret stays
below its character. -/
def caret : Nat → List Char → List Char
  | 0, _ => ['^']
  | indent + 1, [] => ' ' :: caret indent []
  | indent + 1, c :: line => (if c = '\t' then '\t' else ' ') :: caret indent line

def report (f : Fault) (source : String) (lines : LineIndex) (view : View) : String :=
  match lines.line? source.toList f.token.position.line with
  | some line =>
    f.header view ++ "\n" ++ String.ofList line ++ "\n" ++
      String.ofList (caret (f.token.position.column - 1) line)
  | none => f.header view

end Fault
end PolishCalc
